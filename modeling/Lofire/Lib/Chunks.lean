import Mathlib.Data.List.Basic

/-!
# Cutting a list into chunks

`chunks n l` cuts `l` into consecutive pieces of length `n`; only the last piece may be shorter.
The pieces are nonempty, joined they give `l` back (`chunks_flatten`), there are
`⌈length / n⌉` of them (`chunks_length`), and cutting commutes with `map` (`chunks_map`).
-/

namespace Lofire.Lib

variable {α β : Type}

/-- The recursion of `chunks`; the first argument bounds the number of pieces. -/
def chunksAux (n : Nat) : Nat → List α → List (List α)
  | 0, _ => []
  | fuel + 1, l => if l.isEmpty then [] else l.take n :: chunksAux n fuel (l.drop n)

/-- The consecutive pieces of length `n` of a list. -/
def chunks (n : Nat) (l : List α) : List (List α) := chunksAux n l.length l

theorem chunksAux_flatten {n : Nat} (hn : 0 < n) :
    ∀ (fuel : Nat) (l : List α), l.length ≤ fuel → (chunksAux n fuel l).flatten = l := by
  intro fuel
  induction fuel with
  | zero =>
    intro l hl
    simp [chunksAux, List.length_eq_zero_iff.mp (Nat.le_zero.mp hl)]
  | succ fuel ih =>
    intro l hl
    unfold chunksAux
    split
    · rename_i h
      simp [List.isEmpty_iff.mp h]
    · rename_i h
      have hpos : 0 < l.length := List.length_pos_iff.mpr (by simpa using h)
      rw [List.flatten_cons, ih (l.drop n) (by rw [List.length_drop]; omega),
        List.take_append_drop]

theorem chunks_flatten {n : Nat} (hn : 0 < n) (l : List α) : (chunks n l).flatten = l :=
  chunksAux_flatten hn _ l (Nat.le_refl _)

theorem chunksAux_mem {n : Nat} (hn : 0 < n) :
    ∀ (fuel : Nat) (l : List α), ∀ c ∈ chunksAux n fuel l, c ≠ [] ∧ c.length ≤ n := by
  intro fuel
  induction fuel with
  | zero => simp [chunksAux]
  | succ fuel ih =>
    intro l c hc
    unfold chunksAux at hc
    split at hc
    · cases hc
    · rename_i h
      rcases List.mem_cons.mp hc with rfl | hc
      · have hl : l ≠ [] := by simpa using h
        refine ⟨?_, List.length_take_le n l⟩
        intro h0
        rcases List.take_eq_nil_iff.mp h0 with h0 | h0
        · omega
        · exact hl h0
      · exact ih _ c hc

theorem chunks_mem_length_le {n : Nat} (hn : 0 < n) {l : List α} {c : List α}
    (hc : c ∈ chunks n l) : c.length ≤ n := (chunksAux_mem hn _ l c hc).2

/-- A list that is not longer than a piece is one piece. -/
theorem chunks_of_length_le {n : Nat} {l : List α} (hl : l ≠ []) (h : l.length ≤ n) :
    chunks n l = [l] := by
  cases l with
  | nil => exact absurd rfl hl
  | cons a l =>
    simp only [chunks, List.length_cons, chunksAux, List.isEmpty_cons, Bool.false_eq_true, if_false,
      List.take_of_length_le h, List.drop_of_length_le h]
    cases l <;> simp [chunksAux]

theorem chunks_ne_nil {n : Nat} (hn : 0 < n) {l : List α} (hl : l ≠ []) : chunks n l ≠ [] := by
  intro h
  have := chunks_flatten hn l
  rw [h] at this
  exact hl this.symm

theorem chunksAux_map (f : α → β) (n : Nat) :
    ∀ (fuel : Nat) (l : List α),
      chunksAux n fuel (l.map f) = (chunksAux n fuel l).map (List.map f) := by
  intro fuel
  induction fuel with
  | zero => intro l; rfl
  | succ fuel ih =>
    intro l
    simp only [chunksAux, List.isEmpty_map]
    split
    · rfl
    · rw [← List.map_take, ← List.map_drop, ih, List.map_cons]

theorem chunks_map (f : α → β) (n : Nat) (l : List α) :
    chunks n (l.map f) = (chunks n l).map (List.map f) := by
  rw [chunks, List.length_map, chunksAux_map, chunks]

theorem chunksAux_length {n : Nat} (hn : 0 < n) :
    ∀ (fuel : Nat) (l : List α), l.length ≤ fuel →
      (chunksAux n fuel l).length = (l.length + n - 1) / n := by
  intro fuel
  induction fuel with
  | zero =>
    intro l hl
    have : l.length = 0 := by omega
    rw [this]
    exact (Nat.div_eq_of_lt (by omega)).symm
  | succ fuel ih =>
    intro l hl
    unfold chunksAux
    split
    · rename_i h
      rw [List.isEmpty_iff.mp h]
      exact (Nat.div_eq_of_lt (by simp; omega)).symm
    · rename_i h
      have hpos : 0 < l.length := List.length_pos_iff.mpr (by simpa using h)
      rw [List.length_cons, ih (l.drop n) (by rw [List.length_drop]; omega), List.length_drop]
      by_cases hle : l.length ≤ n
      · rw [Nat.div_eq_of_lt (by omega)]
        exact (Nat.div_eq_of_lt_le (by omega) (by omega)).symm
      · rw [← Nat.add_div_right _ hn]
        congr 1
        omega

/-- If there is more than one piece, the first has the full length. -/
theorem length_of_chunks_head {n : Nat} {l c c' : List α} {rest : List (List α)}
    (h : chunks n l = c :: c' :: rest) : c.length = n := by
  unfold chunks at h
  cases l with
  | nil => cases h
  | cons a l =>
    simp only [List.length_cons, chunksAux, List.isEmpty_cons, Bool.false_eq_true, if_false] at h
    obtain ⟨rfl, hrest⟩ := List.cons.inj h
    rw [List.length_take, Nat.min_eq_left]
    by_contra hlt
    have hnil : (a :: l).drop n = [] := List.drop_of_length_le (by omega)
    rw [hnil] at hrest
    cases l <;> simp [chunksAux] at hrest

theorem chunks_length {n : Nat} (hn : 0 < n) (l : List α) :
    (chunks n l).length = (l.length + n - 1) / n := chunksAux_length hn _ l (Nat.le_refl _)

/-- Pieces of length at least two are fewer than the elements, unless there is one element. -/
theorem chunks_length_lt {n : Nat} (hn : 2 ≤ n) {l : List α} (hl : 2 ≤ l.length) :
    (chunks n l).length < l.length := by
  rw [chunks_length (by omega), Nat.div_lt_iff_lt_mul (by omega)]
  have h1 := Nat.mul_le_mul_right n hl
  have h2 := Nat.mul_le_mul_left l.length hn
  omega

end Lofire.Lib
