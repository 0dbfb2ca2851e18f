import Mathlib.Algebra.BigOperators.Group.List.Basic
import Mathlib.Algebra.GroupWithZero.Nat
import Mathlib.Data.List.Infix

/-!
# The shortest initial part of a list with a given total

Each element has a size. `ShortestSum` says that an initial part of the list is the shortest one
whose sizes sum to at least the given size, or the whole list where the total is smaller. `takeSum`
is what a loop takes that tests the total after each element: the shortest such part, except that it
takes one element where none is needed.
-/

namespace Lofire.Lib

variable {α : Type} {f : α → Nat} {size : Nat} {l taken : List α}

/-- `taken` is the shortest initial part of `l` with a total of at least `size`, or all of `l`. -/
structure ShortestSum (f : α → Nat) (size : Nat) (l taken : List α) : Prop where
  initial : taken <+: l
  enough : size ≤ (taken.map f).sum ∨ taken = l
  shortest : ∀ part, part <+: l → size ≤ (part.map f).sum → taken.length ≤ part.length

/-- The elements that a loop takes which stops after the element that brings the total to `size`. -/
def takeSum (f : α → Nat) (size : Nat) : List α → Nat → List α
  | [], _ => []
  | x :: l, total => if size ≤ total + f x then [x] else x :: takeSum f size l (total + f x)

theorem takeSum_congr {g : α → Nat} (h : ∀ x ∈ l, f x = g x) (total : Nat) :
    takeSum f size l total = takeSum g size l total := by
  induction l generalizing total with
  | nil => rfl
  | cons x l ih =>
    rw [List.forall_mem_cons] at h
    rw [takeSum, takeSum, h.1, ih h.2]

theorem takeSum_initial (l : List α) (total : Nat) : takeSum f size l total <+: l := by
  induction l generalizing total with
  | nil => exact List.nil_prefix
  | cons x l ih =>
    rw [takeSum]
    split
    · exact List.cons_prefix_cons.mpr ⟨rfl, List.nil_prefix⟩
    · exact List.cons_prefix_cons.mpr ⟨rfl, ih _⟩

theorem takeSum_enough (l : List α) (total : Nat) :
    size ≤ total + ((takeSum f size l total).map f).sum ∨ takeSum f size l total = l := by
  induction l generalizing total with
  | nil => exact .inr rfl
  | cons x l ih =>
    rw [takeSum]
    split
    · rename_i hstop
      exact .inl (by simpa using hstop)
    · obtain h | h := ih (total + f x)
      · refine .inl ?_
        rw [List.map_cons, List.sum_cons]
        omega
      · exact .inr (by rw [h])

theorem takeSum_shortest {total : Nat} (htotal : total < size) {part : List α} (hpart : part <+: l)
    (hsum : size ≤ total + (part.map f).sum) :
    (takeSum f size l total).length ≤ part.length := by
  induction l generalizing total part with
  | nil => exact Nat.zero_le _
  | cons x l ih =>
    cases part with
    | nil =>
      have : size ≤ total := by simpa using hsum
      omega
    | cons y part =>
      obtain ⟨rfl, hrest⟩ := List.cons_prefix_cons.mp hpart
      rw [List.map_cons, List.sum_cons] at hsum
      rw [takeSum]
      split
      · simp
      · rename_i hmore
        have hsum' : size ≤ total + f y + (part.map f).sum := by omega
        have hlength := ih (by omega) hrest hsum'
        simpa using hlength

/-- A loop that tests the total after each element takes the shortest part that is needed, if
something is needed. -/
theorem shortestSum_takeSum (hsize : 0 < size) : ShortestSum f size l (takeSum f size l 0) where
  initial := takeSum_initial l 0
  enough := by simpa using takeSum_enough l 0
  shortest part hpart hsum := takeSum_shortest hsize hpart (by simpa using hsum)

theorem shortestSum_nil : ShortestSum f size [] [] :=
  ⟨List.nil_prefix, .inr rfl, fun _ _ _ => Nat.zero_le _⟩

theorem ShortestSum.eq_nil (h : ShortestSum f 0 l taken) : taken = [] := by
  have hle := h.shortest [] List.nil_prefix (Nat.zero_le _)
  exact List.length_eq_zero_iff.mp (Nat.le_zero.mp hle)

end Lofire.Lib
