import Mathlib.Data.List.Forall2

/-!
# Lists related element by element

Facts about `List.Forall₂` and about reading a list from an index on.
-/

namespace Lofire.Lib

/-- A relation between lists is split where the first list is. -/
theorem forall₂_append_left {α β : Type} {R : α → β → Prop} {l₁ l₂ : List α} {l : List β}
    (h : List.Forall₂ R (l₁ ++ l₂) l) :
    ∃ m₁ m₂, List.Forall₂ R l₁ m₁ ∧ List.Forall₂ R l₂ m₂ ∧ l = m₁ ++ m₂ := by
  induction l₁ generalizing l with
  | nil => exact ⟨[], l, .nil, h, rfl⟩
  | cons a l₁ ih =>
    cases h with
    | cons ha h =>
      obtain ⟨m₁, m₂, h₁, h₂, rfl⟩ := ih h
      exact ⟨_ :: m₁, m₂, .cons ha h₁, h₂, rfl⟩

theorem getElem?_of_drop {α : Type} {l rest : List α} {i : Nat} {a : α}
    (h : l.drop i = a :: rest) : l[i]? = some a ∧ l.drop (i + 1) = rest := by
  constructor
  · rw [← List.head?_drop, h]
    rfl
  · rw [← List.drop_drop, h]
    rfl

theorem forall₂_head {α β : Type} {R : α → β → Prop} {l : List α} {m : List β}
    (h : List.Forall₂ R l m)
    {a : α} (ha : l.head? = some a) : ∃ b, m.head? = some b ∧ R a b := by
  cases h with
  | nil => cases ha
  | cons hab _ =>
    cases ha
    exact ⟨_, rfl, hab⟩

theorem forall₂_mem_left {α β : Type} {R : α → β → Prop} {l : List α} {m : List β}
    (h : List.Forall₂ R l m) {a : α} (ha : a ∈ l) : ∃ b ∈ m, R a b := by
  induction h with
  | nil => cases ha
  | @cons a' b' _ _ hab _ ih =>
    rcases List.mem_cons.mp ha with rfl | ha
    · exact ⟨b', List.mem_cons_self .., hab⟩
    · obtain ⟨b, hb, hR⟩ := ih ha
      exact ⟨b, List.mem_cons_of_mem _ hb, hR⟩

theorem forall₂_mem_right {α β : Type} {R : α → β → Prop} {l : List α} {m : List β}
    (h : List.Forall₂ R l m) {b : β} (hb : b ∈ m) : ∃ a ∈ l, R a b :=
  forall₂_mem_left h.flip hb

/-- The first element of the list that satisfies `p` satisfies `q`. -/
def FirstWith {α : Type} (p q : α → Prop) : List α → Prop
  | [] => False
  | a :: l => (p a ∧ q a) ∨ (¬ p a ∧ FirstWith p q l)

section FirstWith

variable {α : Type} {p q : α → Prop} {a : α} {l : List α}

theorem firstWith_cons_of_pos (h : p a) : FirstWith p q (a :: l) ↔ q a := by
  simp [FirstWith, h]

theorem firstWith_cons_of_neg (h : ¬ p a) : FirstWith p q (a :: l) ↔ FirstWith p q l := by
  simp [FirstWith, h]

end FirstWith

end Lofire.Lib
