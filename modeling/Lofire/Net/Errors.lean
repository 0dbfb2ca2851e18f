import Lofire.Object

/-!
# Protocol errors (`lofire-net/src/errors.rs`)

A `ProtocolError` is sent as a result code; the code 0 stands for success. The conversions from the
other error types are those of the `From` implementations.
-/

namespace Lofire

inductive ProtocolError
  | writeError
  | actorError
  | invalidState
  | signatureError
  | invalidSignature
  | serializationError
  | partialContent
  | accessDenied
  | overlayNotJoined
  | overlayNotFound
  | brokerError
  | notFound
  | endOfStream
  | storeError
  | missingBlocks
  | objectParseError
  | invalidValue
  | userAlreadyExists
  | repoIdRequired
  | closing
  deriving DecidableEq

/-- `LofireError` -/
inductive LofireError
  | invalidSignature
  | serializationError
  deriving DecidableEq

namespace ProtocolError

/-- The errors in the order of their codes. -/
def all : List ProtocolError :=
  [writeError, actorError, invalidState, signatureError, invalidSignature, serializationError,
    partialContent, accessDenied, overlayNotJoined, overlayNotFound, brokerError, notFound,
    endOfStream, storeError, missingBlocks, objectParseError, invalidValue, userAlreadyExists,
    repoIdRequired, closing]

/-- `e.into()`: the first error has the code 1. -/
def toU16 (e : ProtocolError) : UInt16 := UInt16.ofNat (all.idxOf e + 1)

/-- `ProtocolError::try_from(code)` -/
def tryFrom (code : UInt16) : Option ProtocolError :=
  if code = 0 then none else all[code.toNat - 1]?

def isStream (e : ProtocolError) : Bool := e == partialContent || e == endOfStream

def ofLofireError : LofireError → ProtocolError
  | .invalidSignature => invalidSignature
  | .serializationError => serializationError

def ofObjectParseError (_ : ObjectParseError) : ProtocolError := objectParseError

def ofStorageError : StorageError → ProtocolError
  | .notFound => notFound
  | .invalidValue => invalidValue
  | _ => storeError

/-- Every error is recovered from its code, and no error has the code of success. -/
theorem tryFrom_toU16 (e : ProtocolError) : tryFrom e.toU16 = some e := by
  cases e <;> decide

theorem toU16_ne_zero (e : ProtocolError) : e.toU16 ≠ 0 := by
  cases e <;> decide

/-- The codes of errors are those from 1 to 20. -/
theorem exists_tryFrom_iff {code : UInt16} :
    (∃ e, tryFrom code = some e) ↔ code ≠ 0 ∧ code.toNat ≤ 20 := by
  have hlength : all.length = 20 := rfl
  unfold tryFrom
  by_cases h : code = 0
  · rw [if_pos h]
    simp [h]
  · have hpos : code.toNat ≠ 0 := fun hzero => h (UInt16.toNat_inj.mp hzero)
    rw [if_neg h, and_iff_right h, ← Option.isSome_iff_exists, isSome_getElem?]
    omega

/-- An error is decoded from its own code only. -/
theorem tryFrom_eq_some_iff {code : UInt16} {e : ProtocolError} :
    tryFrom code = some e ↔ code = e.toU16 := by
  constructor
  · intro h
    obtain ⟨hne, hle⟩ := exists_tryFrom_iff.mp ⟨e, h⟩
    have hpos : code.toNat ≠ 0 := fun hzero => hne (UInt16.toNat_inj.mp hzero)
    rw [tryFrom, if_neg hne] at h
    obtain ⟨hlt, rfl⟩ := List.getElem?_eq_some_iff.mp h
    have hnodup : all.Nodup := by decide
    rw [toU16, hnodup.idxOf_getElem, Nat.sub_add_cancel (Nat.one_le_iff_ne_zero.mpr hpos),
      UInt16.ofNat_toNat]
  · rintro rfl
    exact tryFrom_toU16 e

theorem isStream_iff {e : ProtocolError} :
    e.isStream = true ↔ e = partialContent ∨ e = endOfStream := by
  simp [isStream]

/-- The errors of a store are never taken for a part of a stream. -/
theorem isStream_ofStorageError (e : StorageError) : (ofStorageError e).isStream = false := by
  cases e <;> rfl

theorem isStream_ofLofireError (e : LofireError) : (ofLofireError e).isStream = false := by
  cases e <;> rfl

end ProtocolError

end Lofire
