import Lofire.Types
import Mathlib.Data.Set.Function

/-!
# Third-party primitives

What the code takes from other packages: BLAKE3, the ChaCha20 keystream, the `serde_bare` encoding
and the Bloom filter test. They are the parameter `P : Primitives` of the development. What the
code relies on is stated as named hypotheses: `SerdeLaws` (the encoding of blocks and of block
contents is decoded back), `Decodes` (the same for one object content) and `NoCollision` (no two of
the blocks at hand have one id).
-/

namespace Lofire

/-- `serde_bare::to_vec` and `serde_bare::from_slice` at one type. -/
structure Serde (α : Type) where
  toVec : α → Bytes
  fromSlice : Bytes → Option α

namespace Serde

variable {α : Type}

/-- `serde_bare` decodes what it encoded from `a`. -/
def RoundTrips (s : Serde α) (a : α) : Prop := s.fromSlice (s.toVec a) = some a

end Serde

/-- The third-party functions the repository calls. -/
structure Primitives where
  /-- `blake3::hash` -/
  hash : Bytes → Blake3Digest32
  /-- `blake3::keyed_hash` -/
  keyedHash : Vector UInt8 32 → Bytes → Vector UInt8 32
  /-- `blake3::derive_key` -/
  deriveKey : String → Bytes → Vector UInt8 32
  /-- The first `n` bytes of the ChaCha20 keystream for a key and the nonce 0. -/
  keystream : ChaCha20Key → (n : Nat) → Vector UInt8 n
  blockBody : Serde BlockBody
  blockContent : Serde BlockContentV0
  objectContent : Serde ObjectContent
  /-- `Filter::from_u8_array(f, k).contains(d)` -/
  bloomContains : BloomFilter → Blake3Digest32 → Bool

namespace Primitives

variable (P : Primitives)

/-- `ChaCha20::new(key, 0).apply_keystream(bytes)` -/
def applyKeystream (key : ChaCha20Key) (bytes : Bytes) : Bytes :=
  List.zipWith (· ^^^ ·) bytes (P.keystream key bytes.length).toList

@[simp] theorem applyKeystream_length (key : ChaCha20Key) (bytes : Bytes) :
    (P.applyKeystream key bytes).length = bytes.length := by
  simp [applyKeystream]

/-- Applying the keystream of one key twice is the identity. -/
@[simp] theorem applyKeystream_twice (key : ChaCha20Key) (bytes : Bytes) :
    P.applyKeystream key (P.applyKeystream key bytes) = bytes := by
  have hlen := P.applyKeystream_length key bytes
  rw [applyKeystream, hlen]
  apply List.ext_getElem
  · simp
  · intro i _ _
    simp [applyKeystream, UInt8.xor_assoc]

/-- BLAKE3 over the serialized block. -/
def blockId (b : BlockBody) : BlockId := ⟨P.hash (P.blockBody.toVec b)⟩

/-- No two blocks of `S` have the same id. -/
def NoCollision (S : Set BlockBody) : Prop := Set.InjOn P.blockId S

/-- `serde_bare` decodes the blocks and the block contents it encoded, and encodes an object content
with its tag. -/
structure SerdeLaws : Prop where
  blockBody : ∀ b, P.blockBody.RoundTrips b
  blockContent : ∀ c, P.blockContent.RoundTrips c
  objectContent_ne_nil : ∀ c, P.objectContent.toVec c ≠ []

/-- `serde_bare` decodes an object content to one that is `==`. -/
def Decodes (c : ObjectContent) : Prop :=
  ∃ c', P.objectContent.fromSlice (P.objectContent.toVec c) = some c' ∧ c' ≈ c

theorem Decodes.depList {P : Primitives} {ids : List ObjectId} (h : P.Decodes (.depList ids)) :
    P.objectContent.RoundTrips (.depList ids) := by
  obtain ⟨c', hc', hs⟩ := h
  rw [ObjectContent.eq_depList_of_same hs] at hc'
  exact hc'

theorem noCollision_singleton (b : BlockBody) : P.NoCollision {b} := Set.injOn_singleton _ b

end Primitives

end Lofire
