import Mathlib.Data.Finite.Prod
import Mathlib.Data.Fintype.Pi
import Mathlib.Data.List.Lex
import Mathlib.Data.List.Perm.Basic
import Mathlib.Order.Lattice

/-!
# Types of the repository (`lofire/src/types.rs`)

The data types of blocks, objects and commits, in the source's words. Fixed-width integers are
the `UIntN` types, `[u8; 32]` is a vector of 32 bytes and `Vec<u8>` is a list of bytes.

The versioned types of the source have one variant each (`Block::V0`, `Commit::V0`, ...). Such a
type is written here as the record its variant carries; the variant's tag only occurs in the
serialized form. The fields `id` and `key` of a block, which the source marks `#[serde(skip)]`,
are kept apart from the fields that are serialized and hashed: `Block` extends `BlockBody`.

A `HashMap` is given in the order in which it is iterated. Two maps that are `==` in the source
may be iterated in different orders, so equality of contents is the relation `≈` of
`ObjectContent`, not equality of the terms.
-/

namespace Lofire

abbrev Bytes := List UInt8

/-! ## Orders on bytes and integers -/

instance UInt8.linearOrder : LinearOrder UInt8 where
  le_refl := UInt8.le_refl
  le_trans _ _ _ := UInt8.le_trans
  le_antisymm _ _ := UInt8.le_antisymm
  le_total := UInt8.le_total
  lt_iff_le_not_ge _ _ := by simp only [UInt8.lt_iff_toNat_lt, UInt8.le_iff_toNat_le]; omega
  toDecidableLE := inferInstance
  toDecidableEq := inferInstance
  toDecidableLT := inferInstance
  compare_eq_compareOfLessAndEq _ _ := by simp only [compare, compareOfLessAndEq]

instance UInt32.linearOrder : LinearOrder UInt32 where
  le_refl := UInt32.le_refl
  le_trans _ _ _ := UInt32.le_trans
  le_antisymm _ _ := UInt32.le_antisymm
  le_total := UInt32.le_total
  lt_iff_le_not_ge _ _ := by simp only [UInt32.lt_iff_toNat_lt, UInt32.le_iff_toNat_le]; omega
  toDecidableLE := inferInstance
  toDecidableEq := inferInstance
  toDecidableLT := inferInstance
  compare_eq_compareOfLessAndEq _ _ := by simp only [compare, compareOfLessAndEq]

/-! ## Common types -/

/-- 32-byte Blake3 hash digest -/
abbrev Blake3Digest32 := Vector UInt8 32

/-- Hash digest -/
structure Digest where
  blake3Digest32 ::
  bytes : Blake3Digest32
  deriving DecidableEq

/-- Ids are compared as the store compares their serialized form: byte by byte. -/
instance : LinearOrder Digest :=
  LinearOrder.lift' (fun d => d.bytes.toList) fun _ _ h =>
    congrArg Digest.blake3Digest32 (Vector.toList_inj.mp h)

/-- ChaCha20 symmetric key -/
abbrev ChaCha20Key := Vector UInt8 32

/-- Symmetric cryptographic key -/
structure SymKey where
  chaCha20Key ::
  slice : ChaCha20Key
  deriving DecidableEq

/-- Public key -/
structure PubKey where
  ed25519PubKey ::
  slice : Vector UInt8 32
  deriving DecidableEq

/-- Cryptographic signature -/
structure Sig where
  ed25519Sig ::
  halves : Vector UInt8 32 × Vector UInt8 32
  deriving DecidableEq

/-- Timestamp: absolute time in minutes since 2022-02-22 22:22 UTC -/
abbrev Timestamp := UInt32

/-- Relative time (e.g. delay from current time) -/
inductive RelTime
  | seconds (n : UInt8)
  | minutes (n : UInt8)
  | hours (n : UInt8)
  | days (n : UInt8)
  deriving DecidableEq

/-- Bloom filter (variable size) -/
structure BloomFilter where
  k : UInt32
  f : Bytes
  deriving DecidableEq

/-! ## Blocks -/

abbrev BlockId := Digest
abbrev ObjectId := BlockId

/-- Block reference -/
structure BlockRef where
  id : BlockId
  key : SymKey
  deriving DecidableEq

abbrev ObjectRef := BlockRef

/-- Content of a block: a Merkle tree node -/
inductive BlockContentV0
  | internalNode (keys : List SymKey)
  | dataChunk (chunk : Bytes)
  deriving DecidableEq

/-- Dependencies of an object -/
inductive ObjectDeps
  | objectIdList (ids : List ObjectId)
  | depListRef (r : ObjectRef)
  deriving DecidableEq

/-- The serialized fields of a block. -/
structure BlockBody where
  children : List BlockId
  deps : ObjectDeps
  expiry : Option Timestamp
  content : Bytes
  deriving DecidableEq

/-- Immutable block with encrypted content, with the cached id and the key. -/
structure Block extends BlockBody where
  id? : Option BlockId
  key : Option SymKey
  deriving DecidableEq

/-! ## Finitely many ids -/

instance Vector.finite_bytes {n : Nat} : Finite (Vector UInt8 n) := by
  have hbyte : Finite UInt8 := .of_injective UInt8.toFin fun _ _ => UInt8.toFin_inj.mp
  refine .of_injective (fun (v : Vector UInt8 n) (i : Fin n) => v[i]) fun v w h => ?_
  exact Vector.ext fun i hi => congrFun h ⟨i, hi⟩

instance Digest.finite : Finite Digest :=
  .of_injective Digest.bytes fun _ _ h => congrArg Digest.blake3Digest32 h

instance SymKey.finite : Finite SymKey :=
  .of_injective SymKey.slice fun _ _ h => congrArg SymKey.chaCha20Key h

instance BlockRef.finite : Finite BlockRef := by
  refine .of_injective (fun r : BlockRef => (r.id, r.key)) fun r r' h => ?_
  cases r
  cases r'
  cases h
  rfl

/-! ## Commits and object contents -/

inductive CommitType
  | repository
  | addBranch
  | removeBranch
  | branch
  | addMembers
  | endOfBranch
  | transaction
  | snapshot
  | ack
  deriving DecidableEq

structure Repository where
  id : PubKey
  branches : List ObjectRef
  allowExtRequests : Bool
  metadata : Bytes
  deriving DecidableEq

/-- Member of a branch -/
structure Member where
  id : PubKey
  commitTypes : List CommitType
  metadata : Bytes
  deriving DecidableEq

/-- `HashMap<CommitType, u32>`, in iteration order. -/
structure Quorum where
  entries : List (CommitType × UInt32)
  nodupKeys : (entries.map Prod.fst).Nodup
  deriving DecidableEq

/-- Equality of two hash maps: the same entries in any order. -/
def Quorum.Same (q q' : Quorum) : Prop := q.entries.Perm q'.entries

/-- Branch definition -/
structure Branch where
  id : PubKey
  topic : PubKey
  secret : SymKey
  members : List Member
  quorum : Quorum
  ackDelay : RelTime
  tags : Bytes
  metadata : Bytes
  deriving DecidableEq

/-- Add members to an existing branch -/
structure AddMembers where
  members : List Member
  quorum : Option Quorum
  ackDelay : Option RelTime
  deriving DecidableEq

inductive PlainOrEncryptedObjectRef
  | plain (r : ObjectRef)
  | encrypted (bytes : Bytes)
  deriving DecidableEq

structure EndOfBranch where
  fork : Option PlainOrEncryptedObjectRef
  expiry : Timestamp
  deriving DecidableEq

structure Snapshot where
  heads : List ObjectId
  content : Bytes
  deriving DecidableEq

/-- Commit body, corresponds to `CommitType` -/
inductive CommitBody
  | repository (repository : Repository)
  | addBranch (r : ObjectRef)
  | removeBranch (r : ObjectRef)
  | branch (branch : Branch)
  | addMembers (addMembers : AddMembers)
  | endOfBranch (endOfBranch : EndOfBranch)
  | transaction (bytes : Bytes)
  | snapshot (snapshot : Snapshot)
  | ack
  deriving DecidableEq

/-- Content of a commit -/
structure CommitContentV0 where
  author : PubKey
  seq : UInt32
  branch : ObjectRef
  deps : List ObjectRef
  acks : List ObjectRef
  refs : List ObjectRef
  metadata : Bytes
  body : ObjectRef
  expiry : Option Timestamp
  deriving DecidableEq

/-- Commit object. The fields `id` and `key` are not serialized. -/
structure Commit where
  id? : Option ObjectId
  key : Option SymKey
  content : CommitContentV0
  sig : Sig
  deriving DecidableEq

structure File where
  contentType : Bytes
  metadata : Bytes
  content : Bytes
  deriving DecidableEq

/-- Immutable data stored encrypted in a Merkle tree -/
inductive ObjectContent
  | commit (commit : Commit)
  | commitBody (body : CommitBody)
  | file (file : File)
  | depList (ids : List ObjectId)
  deriving DecidableEq

namespace ObjectContent

/-- `==` on contents: equal except for the iteration order of the maps. -/
inductive Same : ObjectContent → ObjectContent → Prop
  | refl (c : ObjectContent) : Same c c
  | branch (b : Branch) {q : Quorum} (h : b.quorum.Same q) :
      Same (.commitBody (.branch b)) (.commitBody (.branch { b with quorum := q }))
  | addMembers (a : AddMembers) {q q' : Quorum} (h : q.Same q') :
      Same (.commitBody (.addMembers { a with quorum := some q }))
        (.commitBody (.addMembers { a with quorum := some q' }))

theorem Same.symm {c c' : ObjectContent} (h : Same c c') : Same c' c := by
  cases h with
  | refl => exact .refl c
  | @branch b q h => exact .branch { b with quorum := q } (q := b.quorum) h.symm
  | addMembers a h => exact .addMembers a h.symm

theorem Same.trans {c₁ c₂ c₃ : ObjectContent} (h : Same c₁ c₂) (h' : Same c₂ c₃) :
    Same c₁ c₃ := by
  cases h with
  | refl => exact h'
  | @branch b q h =>
    cases h' with
    | refl => exact .branch b h
    | @branch _ q' h' => exact .branch b (q := q') (h.trans h')
  | @addMembers a q q' h =>
    generalize hc : commitBody (.addMembers { a with quorum := some q' }) = c at h'
    cases h' with
    | refl => exact hc ▸ .addMembers a h
    | branch => cases hc
    | @addMembers a' p p' h' =>
      simp only [commitBody.injEq, CommitBody.addMembers.injEq, AddMembers.mk.injEq,
        Option.some.injEq] at hc
      obtain ⟨hm, rfl, hd⟩ := hc
      have : Same (.commitBody (.addMembers { a with quorum := some q }))
          (.commitBody (.addMembers { a with quorum := some p' })) := .addMembers a (h.trans h')
      simpa only [hm, hd] using this

instance : Setoid ObjectContent := ⟨Same, .refl, .symm, .trans⟩

/-- A list of dependencies contains no map. -/
theorem eq_depList_of_same {ids : List ObjectId} {c : ObjectContent} (h : c ≈ .depList ids) :
    c = .depList ids := by
  have h : Same c (.depList ids) := h
  cases h with
  | refl => rfl

end ObjectContent

end Lofire
