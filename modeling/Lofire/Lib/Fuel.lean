import Mathlib.Data.Set.Finite.Lattice
import Mathlib.Order.Basic

/-!
# Recursions with a bound

A function whose recursion follows data (a graph in a store, say) is written with a bound `fuel` on
the depth of the recursion and returns `none` when the bound is reached. `Returns f a` says that the
function itself returns `a`: every large enough bound gives `a`.
-/

namespace Lofire.Lib

variable {α : Type}

/-- With enough fuel, `f` gives `a`. -/
def Returns (f : Nat → Option α) (a : α) : Prop := ∃ n, ∀ fuel, n ≤ fuel → f fuel = some a

/-- More fuel does not change a result. -/
def FuelMono (f : Nat → Option α) : Prop := ∀ fuel a, f fuel = some a → f (fuel + 1) = some a

theorem Returns.unique {f : Nat → Option α} {a b : α} (ha : Returns f a) (hb : Returns f b) :
    a = b := by
  obtain ⟨n, hn⟩ := ha
  obtain ⟨m, hm⟩ := hb
  have h1 := hn (n + m) (by omega)
  rw [hm (n + m) (by omega)] at h1
  exact (Option.some.inj h1).symm

theorem FuelMono.le {f : Nat → Option α} (hf : FuelMono f) {n m : Nat} {a : α} (hle : n ≤ m)
    (h : f n = some a) : f m = some a := by
  induction hle with
  | refl => exact h
  | step _ ih => exact hf _ a ih

/-- A step that keeps its result with more fuel, followed by another. -/
theorem bind_mono {α β : Type} {x x' : Option α} {f f' : α → Option β} {b : β}
    (hx : ∀ a, x = some a → x' = some a) (hf : ∀ a, f a = some b → f' a = some b)
    (h : x.bind f = some b) : x'.bind f' = some b := by
  obtain ⟨a, ha, hb⟩ := Option.bind_eq_some_iff.mp h
  exact Option.bind_eq_some_iff.mpr ⟨a, hx a ha, hf a hb⟩

theorem FuelMono.returns {f : Nat → Option α} (hf : FuelMono f) {n : Nat} {a : α}
    (h : f n = some a) : Returns f a := ⟨n, fun _ hle => hf.le hle h⟩

/-- One bound is enough for finitely many functions. -/
theorem exists_fuel_finite {β : Type} [Finite β] (f : β → Nat → Option α) :
    ∃ n, ∀ fuel, n ≤ fuel → ∀ b a, Returns (f b) a → f b fuel = some a := by
  have hbound : ∀ b, ∃ n, ∀ fuel, n ≤ fuel → ∀ a, Returns (f b) a → f b fuel = some a := by
    intro b
    by_cases h : ∃ a, Returns (f b) a
    · obtain ⟨a, n, hn⟩ := h
      refine ⟨n, fun fuel hle a' ha' => ?_⟩
      rw [ha'.unique ⟨n, hn⟩]
      exact hn fuel hle
    · exact ⟨0, fun _ _ a ha => absurd ⟨a, ha⟩ h⟩
  choose bound hbound using hbound
  obtain ⟨n, hn⟩ := (Set.finite_range bound).bddAbove
  exact ⟨n, fun fuel hle b => hbound b fuel ((hn (Set.mem_range_self b)).trans hle)⟩

end Lofire.Lib
