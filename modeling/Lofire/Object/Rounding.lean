import Lofire.Object.Sizes
import Mathlib.Order.Bounds.Basic

/-!
# The rounding of block sizes (`lofire/src/store.rs`)

`store_valid_value_size` rounds a size up to whole pages less the header, and a size above the
largest value down to it. The header is added before the clamp, so the rounding fails for the sizes
that are within a header of the end of `usize`, and for no others
(`storeValidValueSize_rounds_iff`).
-/

namespace Lofire

theorem asF32_of_lt {n : Nat} (h : n < 2 ^ 24) : asF32 n = n := if_pos h

/-- A value of the form that fills its pages. -/
def IsValueSize (size : Nat) : Prop :=
  ∃ pages, 1 ≤ pages ∧ pages ≤ MAX_FACTOR ∧ size + HEADER = pages * PAGE_SIZE

/-- A valid value size is some pages less the header. -/
theorem storeValidValueSize_pages {size valid : Nat} (h : storeValidValueSize size = some valid) :
    IsValueSize valid := by
  have hunder := Object.noUnderflow h
  unfold storeValidValueSize at h
  split at h
  · have hvalid := Option.some.inj h
    have hheader := hunder.validValue
    have hmax := Nat.min_le_right ((asF32 (size + HEADER) + (PAGE_SIZE - 1)) / PAGE_SIZE) MAX_FACTOR
    generalize min ((asF32 (size + HEADER) + (PAGE_SIZE - 1)) / PAGE_SIZE) MAX_FACTOR = pages at *
    refine ⟨pages, ?_, hmax, ?_⟩
    · simp only [HEADER, PAGE_SIZE, MIN_SIZE] at hheader
      omega
    · rw [← hvalid, Nat.sub_add_cancel hheader]
  · cases h

/-- A size is rounded up to whole pages. -/
theorem storeValidValueSize_eq {pages size : Nat} (hpages : pages ≤ MAX_FACTOR)
    (hlow : (pages - 1) * PAGE_SIZE < size + HEADER) (hhigh : size + HEADER ≤ pages * PAGE_SIZE) :
    storeValidValueSize size = some (pages * PAGE_SIZE - HEADER) := by
  have hsmall : size + HEADER < 2 ^ 24 := by
    simp only [MAX_FACTOR, PAGE_SIZE] at hpages hhigh
    omega
  have hceil : (size + HEADER + (PAGE_SIZE - 1)) / PAGE_SIZE = pages := by
    simp only [PAGE_SIZE] at hlow hhigh ⊢
    omega
  rw [storeValidValueSize, if_pos (hsmall.trans (by decide)), asF32_of_lt hsmall, hceil,
    Nat.min_eq_left hpages]

/-- A size above the largest value is rounded down to it, however the conversion to `f32` rounds. -/
theorem storeValidValueSize_large {size : Nat} (hlarge : storeMaxValueSize < size)
    (hsize : size + HEADER < 2 ^ 64) : storeValidValueSize size = some storeMaxValueSize := by
  have hover : MAX_FACTOR * PAGE_SIZE < size + HEADER := by
    simp only [storeMaxValueSize] at hlarge
    omega
  have hconv : MAX_FACTOR * PAGE_SIZE + 1 ≤ asF32 (size + HEADER) := le_asF32 (by decide) hover
  have hpages : MAX_FACTOR ≤ (asF32 (size + HEADER) + (PAGE_SIZE - 1)) / PAGE_SIZE :=
    (Nat.le_div_iff_mul_le (by decide)).mpr (by omega)
  rw [storeValidValueSize, if_pos hsize, Nat.min_eq_right hpages, storeMaxValueSize]

/-- The sum of the size and the header overflows. -/
theorem storeValidValueSize_overflow {size : Nat} (hsize : ¬ size + HEADER < 2 ^ 64) :
    storeValidValueSize size = none := if_neg hsize

/-- The rounding is total where the addition does not overflow. -/
theorem storeValidValueSize_isSome_iff {size : Nat} :
    (∃ valid, storeValidValueSize size = some valid) ↔ size + HEADER < 2 ^ 64 := by
  constructor
  · rintro ⟨valid, hvalid⟩
    by_contra hover
    rw [storeValidValueSize_overflow hover] at hvalid
    cases hvalid
  · exact storeValidValueSize_eq_some

/-- What a size is to be rounded to: the least value size that is at least `size`, or the largest
value when there is none. -/
def RoundsTo (size valid : Nat) : Prop :=
  IsLeast {value | IsValueSize value ∧ size ≤ value} valid ∨
    (storeMaxValueSize < size ∧ valid = storeMaxValueSize)

theorem IsValueSize.le_max {value : Nat} (h : IsValueSize value) : value ≤ storeMaxValueSize := by
  obtain ⟨pages, -, hmax, hvalue⟩ := h
  have hle := Nat.mul_le_mul_right PAGE_SIZE hmax
  simp only [storeMaxValueSize]
  omega

/-- The pages that a size and the header need. -/
theorem exists_pages {size : Nat} (hsize : size ≤ storeMaxValueSize) :
    ∃ pages, 1 ≤ pages ∧ pages ≤ MAX_FACTOR ∧ (pages - 1) * PAGE_SIZE < size + HEADER ∧
      size + HEADER ≤ pages * PAGE_SIZE := by
  refine ⟨(size + HEADER + (PAGE_SIZE - 1)) / PAGE_SIZE, ?_, ?_, ?_, ?_⟩ <;>
    simp only [storeMaxValueSize, MAX_FACTOR, PAGE_SIZE, HEADER, MIN_SIZE] at hsize ⊢ <;> omega

theorem storeValidValueSize_roundsTo {size valid : Nat}
    (h : storeValidValueSize size = some valid) : RoundsTo size valid := by
  by_cases hlarge : storeMaxValueSize < size
  · have hsize : size + HEADER < 2 ^ 64 := storeValidValueSize_isSome_iff.mp ⟨valid, h⟩
    rw [storeValidValueSize_large hlarge hsize] at h
    cases h
    exact .inr ⟨hlarge, rfl⟩
  · obtain ⟨pages, hpos, hmax, hlow, hhigh⟩ := exists_pages (Nat.le_of_not_lt hlarge)
    have hvalue := storeValidValueSize_pages h
    rw [storeValidValueSize_eq hmax hlow hhigh] at h
    have hvalid := Option.some.inj h
    refine .inl ⟨⟨hvalue, by omega⟩, ?_⟩
    rintro other ⟨⟨otherPages, -, -, hother⟩, hle⟩
    -- fewer pages do not hold the size
    have hpages : pages ≤ otherPages := by
      simp only [PAGE_SIZE] at hlow hother
      omega
    have hmul := Nat.mul_le_mul_right PAGE_SIZE hpages
    omega

/-- Rounding is monotone. -/
theorem RoundsTo.mono {small large lower upper : Nat} (hle : small ≤ large)
    (hsmall : RoundsTo small lower) (hlarge : RoundsTo large upper) : lower ≤ upper := by
  obtain hsmall | ⟨hover, rfl⟩ := hsmall
  · obtain hlarge | ⟨-, rfl⟩ := hlarge
    · exact hsmall.2 ⟨hlarge.1.1, hle.trans hlarge.1.2⟩
    · exact hsmall.1.1.le_max
  · obtain hlarge | ⟨-, rfl⟩ := hlarge
    · exact absurd hlarge.1.1.le_max (Nat.not_le.mpr (hover.trans_le (hle.trans hlarge.1.2)))
    · exact Nat.le_refl _

/-- A value size is rounded to itself. -/
theorem IsValueSize.rounded {value : Nat} (h : IsValueSize value) :
    storeValidValueSize value = some value := by
  obtain ⟨pages, hpos, hmax, hvalue⟩ := h
  have hlow : (pages - 1) * PAGE_SIZE < value + HEADER := by
    simp only [PAGE_SIZE] at hvalue ⊢
    omega
  rw [storeValidValueSize_eq hmax hlow hvalue.le, ← hvalue, Nat.add_sub_cancel]

/-- `new` returns if and only if its block size is rounded. -/
theorem Object.new_returns_iff {P : Primitives} (hP : P.SerdeLaws) (content : ObjectContent)
    (deps : List ObjectId) (expiry : Option Timestamp) {blockSize : Nat} (repoPubkey : PubKey)
    (repoSecret : SymKey) :
    (∃ o, Object.new P content deps expiry blockSize repoPubkey repoSecret = some o) ↔
      blockSize + HEADER < 2 ^ 64 := by
  constructor
  · rintro ⟨o, hnew⟩
    obtain ⟨valid, hvalid, -⟩ := Option.bind_eq_some_iff.mp hnew
    exact storeValidValueSize_isSome_iff.mp ⟨valid, hvalid⟩
  · exact fun hsize => new_returns hP content deps expiry hsize repoPubkey repoSecret

/-- The rounding of a size is as its callers need it. -/
structure RoundedRight (size valid : Nat) : Prop where
  result : storeValidValueSize size = some valid
  roundsTo : RoundsTo size valid
  monotone : ∀ smaller ≤ size, ∃ lower, storeValidValueSize smaller = some lower ∧ lower ≤ valid
  idempotent : storeValidValueSize valid = some valid
  atLeast : MIN_SIZE ≤ valid
  atMost : valid ≤ storeMaxValueSize
  noUnderflow : Object.NoUnderflow size valid

theorem storeValidValueSize_roundedRight {size valid : Nat}
    (h : storeValidValueSize size = some valid) : RoundedRight size valid where
  result := h
  roundsTo := storeValidValueSize_roundsTo h
  monotone smaller hle := by
    have hsize : size + HEADER < 2 ^ 64 := storeValidValueSize_isSome_iff.mp ⟨valid, h⟩
    obtain ⟨lower, hlower⟩ := @storeValidValueSize_eq_some smaller (by omega)
    exact ⟨lower, hlower,
      (storeValidValueSize_roundsTo hlower).mono hle (storeValidValueSize_roundsTo h)⟩
  idempotent := (storeValidValueSize_pages h).rounded
  atLeast := (storeValidValueSize_bounds h).1
  atMost := (storeValidValueSize_bounds h).2
  noUnderflow := Object.noUnderflow h

/-- The largest sizes are not rounded: their sum with the header overflows. -/
theorem storeValidValueSize_not_total :
    ¬ ∀ size < 2 ^ 64, ∃ valid, RoundedRight size valid := by
  intro htotal
  obtain ⟨valid, hright⟩ := htotal (2 ^ 64 - HEADER) (by decide)
  cases hright.result.symm.trans (storeValidValueSize_overflow (by decide))

/-- A size is rounded right if and only if its sum with the header does not overflow. -/
theorem storeValidValueSize_rounds_iff (size : Nat) :
    (∃ valid, RoundedRight size valid) ↔ size + HEADER < 2 ^ 64 := by
  rw [← storeValidValueSize_isSome_iff]
  constructor
  · rintro ⟨valid, hright⟩
    exact ⟨valid, hright.result⟩
  · rintro ⟨valid, hvalid⟩
    exact ⟨valid, storeValidValueSize_roundedRight hvalid⟩

end Lofire
