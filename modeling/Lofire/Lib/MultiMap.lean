import Mathlib.Data.Finset.Sort
import Mathlib.Data.Finset.Image
import Mathlib.Data.Prod.Lex
import Mathlib.Order.OrderDual

/-!
# Multi-maps with ordered keys and values

A `MultiMap` is a set of pairs: a key can have any number of values, and a pair that is put twice is
there once. The pairs can be listed in the order of keys and values.
-/

namespace Lofire.Lib

/-- A finite set of key-value pairs. -/
abbrev MultiMap (K V : Type) := Finset (K × V)

namespace MultiMap

variable {K V : Type} [LinearOrder K] [LinearOrder V]

/-- The values of a key. -/
def values (m : MultiMap K V) (k : K) : Finset V := (m.filter fun p => p.1 = k).image Prod.snd

@[simp] theorem mem_values {m : MultiMap K V} {k : K} {v : V} : v ∈ m.values k ↔ (k, v) ∈ m := by
  constructor
  · intro h
    obtain ⟨p, hp, rfl⟩ := Finset.mem_image.mp h
    obtain ⟨hmem, rfl⟩ := Finset.mem_filter.mp hp
    exact hmem
  · intro h
    exact Finset.mem_image.mpr ⟨(k, v), Finset.mem_filter.mpr ⟨h, rfl⟩, rfl⟩

/-- The smallest value of a key. -/
def first (m : MultiMap K V) (k : K) : Option V :=
  if h : (m.values k).Nonempty then some ((m.values k).min' h) else none

theorem first_mem {m : MultiMap K V} {k : K} {v : V} (h : m.first k = some v) : (k, v) ∈ m := by
  unfold first at h
  split at h
  · cases h
    exact mem_values.mp (Finset.min'_mem _ _)
  · cases h

theorem first_eq_none {m : MultiMap K V} {k : K} : m.first k = none ↔ ∀ v, (k, v) ∉ m := by
  unfold first
  split
  · rename_i hne
    obtain ⟨v, hv⟩ := hne
    refine iff_of_false (by simp) fun h => h v (mem_values.mp hv)
  · rename_i hempty
    refine iff_of_true rfl fun v hv => hempty ⟨v, mem_values.mpr hv⟩

theorem first_congr {m m' : MultiMap K V} {k : K} (h : m'.values k = m.values k) :
    m'.first k = m.first k := by
  unfold first
  simp only [h]

/-- A key with a single value has that value first. -/
theorem first_of_unique {m : MultiMap K V} {k : K} {v : V} (hv : (k, v) ∈ m)
    (huniq : ∀ v', (k, v') ∈ m → v' = v) : m.first k = some v := by
  cases h : m.first k with
  | none => exact absurd hv (first_eq_none.mp h v)
  | some v' => rw [huniq v' (first_mem h)]

/-- All pairs, in the order of keys and values. -/
def ascending (m : MultiMap K V) : List (K × V) :=
  ((m.map toLex.toEmbedding).sort (· ≤ ·)).map ofLex

theorem mem_ascending {m : MultiMap K V} {p : K × V} : p ∈ m.ascending ↔ p ∈ m := by
  simp only [ascending, List.mem_map, Finset.mem_sort, Finset.mem_map_equiv]
  constructor
  · rintro ⟨q, hq, rfl⟩
    exact hq
  · intro h
    exact ⟨toLex p, h, rfl⟩

theorem nodup_ascending (m : MultiMap K V) : m.ascending.Nodup :=
  (Finset.sort_nodup _ _).map ofLex.injective

/-- The pairs with keys up to `k`: keys in descending order, the values of a key in ascending
order. -/
def descendingFrom (m : MultiMap K V) (k : K) : List (K × V) :=
  (((m.filter fun p => p.1 ≤ k).image fun p => toLex (OrderDual.toDual p.1, p.2)).sort
    (· ≤ ·)).map fun p => (OrderDual.ofDual (ofLex p).1, (ofLex p).2)

theorem mem_descendingFrom {m : MultiMap K V} {k : K} {p : K × V} :
    p ∈ m.descendingFrom k ↔ p ∈ m ∧ p.1 ≤ k := by
  simp only [descendingFrom, List.mem_map, Finset.mem_sort, Finset.mem_image, Finset.mem_filter]
  constructor
  · rintro ⟨q, ⟨p, hp, rfl⟩, rfl⟩
    exact hp
  · intro h
    exact ⟨_, ⟨p, h, rfl⟩, rfl⟩

theorem nodup_descendingFrom (m : MultiMap K V) (k : K) : (m.descendingFrom k).Nodup := by
  refine (Finset.sort_nodup _ _).map ?_
  rintro ⟨k₁, v₁⟩ ⟨k₂, v₂⟩ h
  exact h

end MultiMap

end Lofire.Lib
