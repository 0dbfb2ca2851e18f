import Mathlib.Data.Fintype.EquivFin
import Mathlib.Data.Set.Finite.Basic
import Mathlib.Logic.Relation
import Mathlib.Order.WellFounded

/-!
# Relations without cycles

A relation without cycles in which only finitely many vertices have a successor is well founded
(`wellFounded_of_acyclic`). If moreover every vertex has finitely many successors, the paths from a
vertex have bounded length (`exists_within`).
-/

namespace Lofire.Lib

variable {α : Type} (r : α → α → Prop)

/-- No path leads back to its start. -/
def Acyclic : Prop := ∀ a, ¬ Relation.TransGen r a a

/-- Every path from `a` has at most `n` steps. -/
def Within : Nat → α → Prop
  | 0, a => ∀ b, ¬ r a b
  | n + 1, a => ∀ b, r a b → Within n b

variable {r}

/-- A relation along which a rank goes down has no cycle. -/
theorem acyclic_of_rank (rank : α → Nat) (h : ∀ a b, r a b → rank b < rank a) : Acyclic r := by
  have htrans : ∀ a b, Relation.TransGen r a b → rank b < rank a := by
    intro a b hab
    induction hab with
    | single hab => exact h _ _ hab
    | tail _ hbc ih => exact (h _ _ hbc).trans ih
  exact fun a haa => lt_irrefl _ (htrans a a haa)

theorem wellFounded_of_acyclic (hr : Acyclic r) (hfin : {a | ∃ b, r a b}.Finite) :
    WellFounded fun b a => r a b := by
  let below : {a // ∃ b, r a b} → {a // ∃ b, r a b} → Prop := fun b a => Relation.TransGen r a.1 b.1
  have hfinite : Finite {a // ∃ b, r a b} := hfin
  have htrans : IsTrans _ below := ⟨fun _ _ _ hba hcb => hcb.trans hba⟩
  have hirrefl : Std.Irrefl below := ⟨fun a => hr a.1⟩
  have hwf : WellFounded below := Finite.wellFounded_of_trans_of_irrefl below
  have hacc : ∀ a : {a // ∃ b, r a b}, Acc (fun b a => r a b) a.1 := by
    intro a
    induction a using hwf.induction with
    | h a ih =>
      refine ⟨_, fun b hb => ?_⟩
      by_cases hnext : ∃ c, r b c
      · exact ih ⟨b, hnext⟩ (.single hb)
      · exact ⟨_, fun c hc => absurd ⟨c, hc⟩ hnext⟩
  refine ⟨fun a => ⟨_, fun b hb => ?_⟩⟩
  by_cases hnext : ∃ c, r b c
  · exact hacc ⟨b, hnext⟩
  · exact ⟨_, fun c hc => absurd ⟨c, hc⟩ hnext⟩

theorem Within.succ {n : Nat} {a : α} (h : Within r n a) : Within r (n + 1) a := by
  induction n generalizing a with
  | zero => exact fun b hb => absurd hb (h b)
  | succ n ih => exact fun b hb => ih (h b hb)

theorem Within.le {n m : Nat} {a : α} (h : Within r n a) (hle : n ≤ m) : Within r m a := by
  induction hle with
  | refl => exact h
  | step _ ih => exact ih.succ

/-- One bound is enough for the elements of a list. -/
theorem exists_bound_list {p : Nat → α → Prop}
    (hmono : ∀ {n m a}, n ≤ m → p n a → p m a) {l : List α}
    (h : ∀ a ∈ l, ∃ n, p n a) : ∃ n, ∀ a ∈ l, p n a := by
  induction l with
  | nil => exact ⟨0, fun a ha => absurd ha List.not_mem_nil⟩
  | cons a l ih =>
    obtain ⟨n, hn⟩ := ih fun b hb => h b (List.mem_cons_of_mem a hb)
    obtain ⟨m, hm⟩ := h a List.mem_cons_self
    refine ⟨max n m, fun b hb => ?_⟩
    obtain rfl | hb := List.mem_cons.mp hb
    · exact hmono (Nat.le_max_right n m) hm
    · exact hmono (Nat.le_max_left n m) (hn b hb)

/-- The paths from a vertex have bounded length. -/
theorem exists_within (hwf : WellFounded fun b a => r a b) {succ : α → List α}
    (hsucc : ∀ a b, r a b → b ∈ succ a) (a : α) : ∃ n, Within r n a := by
  induction a using hwf.induction with
  | h a ih =>
    obtain ⟨n, hn⟩ := exists_bound_list (p := fun n b => r a b → Within r n b) (l := succ a)
      (fun hle hp hb => (hp hb).le hle) fun b _ => by
        by_cases hb : r a b
        · obtain ⟨n, hn⟩ := ih b hb
          exact ⟨n, fun _ => hn⟩
        · exact ⟨0, fun h => absurd h hb⟩
    exact ⟨n + 1, fun b hb => hn b (hsucc a b hb) hb⟩

end Lofire.Lib
