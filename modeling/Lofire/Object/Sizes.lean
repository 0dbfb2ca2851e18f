import Lofire.Object.Tree
import Lofire.Reference

/-!
# The sizes of the blocks of an object

`BareLengths` states how long the encodings of blocks and their contents are. With these lengths
every block that `new` creates fits in the valid value size that the block size is rounded to
(`new_blocks_fit`): the constants of `object.rs` account for the largest varints.
-/

namespace Lofire

open Lib

/-- The serialized length of dependencies after their tag. -/
def ObjectDeps.length : ObjectDeps → Nat
  | .objectIdList ids => Codec.uintLength ids.length + BLOCK_ID_SIZE * ids.length
  | .depListRef _ => BLOCK_ID_SIZE + BLOCK_KEY_SIZE

/-- `serde_bare` writes tags and lengths as varints, an option as a byte and its value, a `u32` in 4
bytes, and an id or a key in 33. -/
structure Primitives.BareLengths (P : Primitives) : Prop where
  blockBody : ∀ b : BlockBody, (P.blockBody.toVec b).length =
    1 + (Codec.uintLength b.children.length + BLOCK_ID_SIZE * b.children.length) +
    (1 + b.deps.length) +
      (if b.expiry.isSome then 1 + 4 else 1) +
      (Codec.uintLength b.content.length + b.content.length)
  internalNode : ∀ keys, (P.blockContent.toVec (.internalNode keys)).length =
    1 + (Codec.uintLength keys.length + BLOCK_KEY_SIZE * keys.length)
  dataChunk : ∀ chunk, (P.blockContent.toVec (.dataChunk chunk)).length =
    1 + (Codec.uintLength chunk.length + chunk.length)

namespace Reference

theorem digest_length : digest.HasLength 33 := (Codec.byte_length.array 32).tagged.iso _

theorem symKey_length : symKey.HasLength 33 := (Codec.byte_length.array 32).tagged.iso _

theorem blockRef_length : blockRef.HasLength 66 := (digest_length.pair symKey_length).iso _

theorem data_length (bytes : Bytes) :
    (data.encode bytes).length = Codec.uintLength bytes.length + bytes.length := by
  rw [data, Codec.byte_length.list, Nat.one_mul]

theorem objectDeps_length (deps : ObjectDeps) :
    (objectDeps.encode deps).length = 1 + deps.length := by
  cases deps with
  | objectIdList ids =>
    show (Codec.uint.encode 0 ++ digest.list.encode ids).length = _
    rw [List.length_append, Codec.uint_length, digest_length.list]
    rfl
  | depListRef r =>
    show (Codec.uint.encode 1 ++ blockRef.encode r).length = _
    rw [List.length_append, Codec.uint_length, blockRef_length]
    rfl

theorem bareLengths {bloom : BloomFilter → Blake3Digest32 → Bool} :
    (reference bloom).BareLengths where
  blockBody b := by
    show ((digest.list.pair (objectDeps.pair (Codec.u32.option.pair data))).tagged.encode
      (b.children, b.deps, b.expiry, b.content)).length = _
    rw [Codec.tagged_length]
    show 1 + (digest.list.encode b.children ++ (objectDeps.encode b.deps ++
      (Codec.u32.option.encode b.expiry ++ data.encode b.content))).length = _
    rw [List.length_append, List.length_append, List.length_append, digest_length.list,
      objectDeps_length, Codec.u32_length.option, data_length]
    simp only [BLOCK_ID_SIZE, Nat.add_assoc]
  internalNode keys := by
    show (Codec.uint.encode 0 ++ symKey.list.encode keys).length = _
    rw [List.length_append, Codec.uint_length, symKey_length.list]
    rfl
  dataChunk chunk := by
    show (Codec.uint.encode 1 ++ data.encode chunk).length = _
    rw [List.length_append, Codec.uint_length, data_length]
    rfl

end Reference

namespace Object

variable {P : Primitives}

/-! ## The blocks that `new` creates -/

theorem mapM_key_length {bs : List Block} {keys : List SymKey} (h : bs.mapM Block.key = some keys) :
    keys.length = bs.length := by
  induction bs generalizing keys with
  | nil =>
    cases h
    rfl
  | cons b bs ih =>
    rw [List.mapM_cons] at h
    obtain ⟨key, -, h⟩ := Option.bind_eq_some_iff.mp h
    obtain ⟨rest, hrest, h⟩ := Option.bind_eq_some_iff.mp h
    cases h
    rw [List.length_cons, List.length_cons, ih hrest]

/-- An inner node with at most `arity` children. It may carry the dependencies of the root. -/
def IsInner (P : Primitives) (convKey : Vector UInt8 32) (rootDeps : ObjectDeps)
    (expiry : Option Timestamp)
    (arity : Nat) (b : Block) : Prop :=
  ∃ keys children deps, keys.length = children.length ∧ children.length ≤ arity ∧
    (deps = rootDeps ∨ deps = .objectIdList []) ∧
    b = makeBlock P (P.blockContent.toVec (.internalNode keys)) convKey children deps expiry

variable {convKey : Vector UInt8 32} {rootDeps : ObjectDeps} {expiry : Option Timestamp}

theorem makeParents_isInner {n : Nat} {groups : List (List Block)}
    (hgroups : ∀ group ∈ groups, group.length ≤ n)
    {acc out : List Block} (hacc : ∀ b ∈ acc, IsInner P convKey rootDeps expiry n b)
    (h : makeParents P convKey rootDeps expiry groups acc = some out) :
    ∀ b ∈ out, IsInner P convKey rootDeps expiry n b := by
  induction groups generalizing acc with
  | nil =>
    cases h
    exact hacc
  | cons group groups ih =>
    rw [List.forall_mem_cons] at hgroups
    obtain ⟨keys, hkeys, h⟩ := Option.bind_eq_some_iff.mp h
    refine ih hgroups.2 (fun b hb => ?_) h
    obtain hb | hb := List.mem_append.mp hb
    · exact hacc b hb
    · rw [List.mem_singleton.mp hb]
      refine ⟨keys, group.map (Block.id P), _, ?_, ?_, ?_, rfl⟩
      · rw [List.length_map, mapM_key_length hkeys]
      · rw [List.length_map]
        exact hgroups.1
      · split
        · exact .inl rfl
        · exact .inr rfl

theorem makeTree_isInner {n : Nat} (hn : 0 < n) {fuel : Nat} {leaves out : List Block}
    (h : makeTree P convKey rootDeps expiry n fuel leaves = some out) :
    ∀ b ∈ out, IsInner P convKey rootDeps expiry n b := by
  induction fuel generalizing leaves out with
  | zero => cases h
  | succ fuel ih =>
    obtain ⟨parents, hparents, h⟩ := Option.bind_eq_some_iff.mp h
    have hinner := makeParents_isInner (fun group hgroup => chunks_mem_length_le hn hgroup)
      (fun b hb => absurd hb List.not_mem_nil) hparents
    split at h
    · obtain ⟨great, hgreat, h⟩ := Option.bind_eq_some_iff.mp h
      cases h
      intro b hb
      obtain hb | hb := List.mem_append.mp hb
      · exact hinner b hb
      · exact ih hgreat b hb
    · cases h
      exact hinner

/-! ## Their sizes -/

variable (hlen : P.BareLengths)

include hlen

theorem makeBlock_length_le {content : Bytes} (hcontent : content.length < 128 ^ 3)
    (children : List ObjectId) (deps : ObjectDeps) :
    ((makeBlock P content convKey children deps expiry).toVec P).length ≤
      10 + (Codec.uintLength children.length + BLOCK_ID_SIZE * children.length) + deps.length +
        content.length := by
  show (P.blockBody.toVec ⟨children, deps, expiry, P.applyKeystream _ content⟩).length ≤ _
  rw [hlen.blockBody, Primitives.applyKeystream_length]
  have hvarint := Codec.uintLength_le (k := 3) (by decide) hcontent
  dsimp only
  split
  · omega
  · omega

/-- A data block without dependencies needs 16 bytes besides the chunk. -/
theorem makeDataBlock_length_le {chunk : Bytes} (hchunk : chunk.length + 4 < 128 ^ 3)
    (deps : ObjectDeps) :
    ((makeDataBlock P convKey deps expiry chunk).toVec P).length ≤
    15 + deps.length + chunk.length := by
  have hvarint := Codec.uintLength_le (n := chunk.length) (k := 3) (by decide) (by omega)
  have hcontent := hlen.dataChunk chunk
  have hblock := @makeBlock_length_le P convKey expiry hlen
    (P.blockContent.toVec (.dataChunk chunk))
    (by omega) [] deps
  have hzero : Codec.uintLength ([] : List ObjectId).length = 1 := rfl
  rw [hcontent, hzero, List.length_nil] at hblock
  exact hblock.trans (by omega)

/-- An inner node needs 66 bytes for each child, 17 more and those of the dependencies. -/
theorem IsInner.length_le {n : Nat} (hn : 4 + BLOCK_KEY_SIZE * n < 128 ^ 3) {b : Block}
    (h : IsInner P convKey rootDeps expiry n b) :
    (b.toVec P).length ≤ 17 + (BLOCK_ID_SIZE + BLOCK_KEY_SIZE) * n + max rootDeps.length 1 := by
  obtain ⟨keys, children, deps, hkeys, hchildren, hdeps, rfl⟩ := h
  simp only [BLOCK_KEY_SIZE] at hn
  have hvarint := Codec.uintLength_le (n := children.length) (k := 3) (by decide) (by omega)
  have hcontent := hlen.internalNode keys
  rw [hkeys] at hcontent
  simp only [BLOCK_KEY_SIZE] at hcontent
  have hblock := @makeBlock_length_le P convKey expiry hlen
    (P.blockContent.toVec (.internalNode keys))
    (by omega) children deps
  have hdepsLength : deps.length ≤ max rootDeps.length 1 := by
    obtain rfl | rfl := hdeps
    · exact Nat.le_max_left ..
    · exact Nat.le_max_right ..
  simp only [BLOCK_ID_SIZE, BLOCK_KEY_SIZE] at hblock ⊢
  omega

omit hlen in
/-- The inline dependencies are at most 8, and a reference is shorter than 9 ids. -/
theorem makeDeps_length {deps : List ObjectId} {objectSize : Nat}
    {repoPubkey : PubKey} {repoSecret : SymKey}
    {objDeps : ObjectDeps} (h : makeDeps P deps objectSize repoPubkey repoSecret = some objDeps) :
    1 ≤ objDeps.length ∧ objDeps.length ≤ 1 + BLOCK_ID_SIZE * deps.length ∧
      objDeps.length ≤ 1 + MAX_DEPS_SIZE := by
  obtain ⟨hshort, rfl⟩ | ⟨hlong, r, rfl⟩ := makeDeps_cases h
  · have hvarint : Codec.uintLength deps.length ≤ 1 :=
      Codec.uintLength_le (by decide) (show deps.length < 128 ^ 1 by omega)
    have hpos : 1 ≤ Codec.uintLength deps.length := Nat.succ_le_succ (Nat.zero_le _)
    simp only [ObjectDeps.length, BLOCK_ID_SIZE, MAX_DEPS_SIZE]
    omega
  · simp only [ObjectDeps.length, BLOCK_ID_SIZE, BLOCK_KEY_SIZE, MAX_DEPS_SIZE]
    omega

/-- The blocks of one tree fit. -/
theorem newWithDeps_fits {valid : Nat} (hmin : MIN_SIZE ≤ valid) (hmax : valid ≤ storeMaxValueSize)
    {content : ObjectContent} {deps : List ObjectId} {objDeps : ObjectDeps}
    (hpos : 1 ≤ objDeps.length) (hroot : objDeps.length ≤ 1 + BLOCK_ID_SIZE * deps.length)
    (hdeps : objDeps.length ≤ 1 + MAX_DEPS_SIZE) {repoPubkey : PubKey}
    {repoSecret : SymKey} {o : Object}
    (h : newWithDeps P content deps objDeps expiry valid repoPubkey repoSecret = some o) :
    ∀ b ∈ o.blocks, (b.toVec P).length ≤ valid := by
  simp only [storeMaxValueSize, MAX_FACTOR, PAGE_SIZE, HEADER, MIN_SIZE] at hmin hmax
  simp only [newWithDeps] at h
  split at h
  · rename_i hfits
    cases h
    intro b hb
    rw [List.mem_singleton.mp hb]
    simp only [EMPTY_BLOCK_SIZE, DATA_VARINT_EXTRA] at hfits
    exact (makeDataBlock_length_le hlen (by omega) objDeps).trans (by omega)
  · obtain ⟨parents, hparents, h⟩ := Option.bind_eq_some_iff.mp h
    cases h
    intro b hb
    obtain hb | hb := List.mem_append.mp hb
    · obtain ⟨chunk, hchunk, rfl⟩ := List.mem_map.mp hb
      have hsize := chunks_mem_length_le (by simp only [EMPTY_BLOCK_SIZE, DATA_VARINT_EXTRA]; omega)
        hchunk
      simp only [EMPTY_BLOCK_SIZE, DATA_VARINT_EXTRA] at hsize
      have hnone : (ObjectDeps.objectIdList []).length = 1 := rfl
      exact (makeDataBlock_length_le hlen (by omega) _).trans (by omega)
    · have harity : (BLOCK_ID_SIZE + BLOCK_KEY_SIZE) * arity valid ≤
          valid - EMPTY_BLOCK_SIZE - BIG_VARINT_EXTRA * 2 - MAX_DEPS_SIZE := Nat.mul_div_le ..
      have harityPos : 2 ≤ arity valid := arity_ge hmin
      simp only [EMPTY_BLOCK_SIZE, BIG_VARINT_EXTRA, MAX_DEPS_SIZE, BLOCK_ID_SIZE,
        BLOCK_KEY_SIZE] at harity hdeps
      have hlength := (makeTree_isInner (by omega) hparents b hb).length_le hlen
        (by simp only [BLOCK_KEY_SIZE]; omega)
      simp only [BLOCK_ID_SIZE, BLOCK_KEY_SIZE] at hlength
      omega

omit hlen in
/-- `new` returns an object. -/
theorem new_returns (hP : P.SerdeLaws) (content : ObjectContent) (deps : List ObjectId)
    (expiry : Option Timestamp) {blockSize : Nat} (hsize : blockSize + HEADER < 2 ^ 64)
    (repoPubkey : PubKey)
    (repoSecret : SymKey) :
    ∃ o, new P content deps expiry blockSize repoPubkey repoSecret = some o := by
  by_cases hdeps : deps.length ≤ 8
  · obtain ⟨o, -, -, hnew, -⟩ := new_spec hP content hdeps expiry hsize repoPubkey repoSecret
    exact ⟨o, hnew⟩
  · obtain ⟨depObj, depBelow, depRoot, hdepObj, hdep⟩ :=
      depListObject_spec hP deps hsize repoPubkey repoSecret
    obtain ⟨o, -, -, hnew, -⟩ :=
      new_spec_long hP content (Nat.lt_of_not_le hdeps) expiry hsize repoPubkey
      repoSecret hdepObj hdep
    exact ⟨o, hnew⟩

/-- No subtraction in the sizes goes below zero. -/
structure NoUnderflow (blockSize valid : Nat) : Prop where
  header : MIN_SIZE ≤ PAGE_SIZE
  maxValue : HEADER ≤ MAX_FACTOR * PAGE_SIZE
  validValue : HEADER ≤
    min ((asF32 (blockSize + HEADER) + (PAGE_SIZE - 1)) / PAGE_SIZE) MAX_FACTOR * PAGE_SIZE
  dataChunk : EMPTY_BLOCK_SIZE + DATA_VARINT_EXTRA ≤ valid
  arity : EMPTY_BLOCK_SIZE + BIG_VARINT_EXTRA * 2 + MAX_DEPS_SIZE ≤ valid

omit hlen in
theorem noUnderflow {blockSize valid : Nat} (hvalid : storeValidValueSize blockSize = some valid) :
    NoUnderflow blockSize valid := by
  obtain ⟨hmin, -⟩ := storeValidValueSize_bounds hvalid
  unfold storeValidValueSize at hvalid
  split at hvalid
  · have hvalid := Option.some.inj hvalid
    simp only [MIN_SIZE, HEADER, PAGE_SIZE] at hmin hvalid
    refine ⟨by decide, by decide, ?_, ?_, ?_⟩
    · simp only [HEADER, MIN_SIZE, PAGE_SIZE]
      omega
    · simp only [EMPTY_BLOCK_SIZE, DATA_VARINT_EXTRA]
      omega
    · simp only [EMPTY_BLOCK_SIZE, BIG_VARINT_EXTRA, MAX_DEPS_SIZE, BLOCK_ID_SIZE]
      omega
  · cases hvalid

/-- The blocks of a new object fit in the valid value size of the block size. -/
theorem new_fits {content : ObjectContent} {deps : List ObjectId} {expiry : Option Timestamp}
    {blockSize : Nat} {repoPubkey : PubKey} {repoSecret : SymKey} {o : Object}
    (hnew : new P content deps expiry blockSize repoPubkey repoSecret = some o) :
    ∃ valid, storeValidValueSize blockSize = some valid ∧
      ∀ b ∈ o.blocks, (b.toVec P).length ≤ valid ∧ (b.toVec P).length ≤ storeMaxValueSize := by
  unfold new at hnew
  obtain ⟨valid, hvalid, hnew⟩ := Option.bind_eq_some_iff.mp hnew
  obtain ⟨objDeps, hdeps, hnew⟩ := Option.bind_eq_some_iff.mp hnew
  obtain ⟨hmin, hmax⟩ := storeValidValueSize_bounds hvalid
  obtain ⟨hpos, hroot, hinline⟩ := makeDeps_length hdeps
  refine ⟨valid, hvalid, fun b hb => ?_⟩
  have hfits := newWithDeps_fits hlen hmin hmax hpos hroot hinline hnew b hb
  exact ⟨hfits, hfits.trans hmax⟩

/-- Every block that `new` creates fits in the valid value size of the block size, and so in the
largest value of the store; no subtraction in the sizes underflows. -/
theorem new_blocks_fit (hP : P.SerdeLaws) (content : ObjectContent) (deps : List ObjectId)
    (expiry : Option Timestamp) {blockSize : Nat} (hsize : blockSize < 2 ^ 32) (repoPubkey : PubKey)
    (repoSecret : SymKey) :
    ∃ valid o, storeValidValueSize blockSize = some valid ∧
      new P content deps expiry blockSize repoPubkey repoSecret = some o ∧
      (∀ b ∈ o.blocks, (b.toVec P).length ≤ valid ∧ (b.toVec P).length ≤ storeMaxValueSize) ∧
      NoUnderflow blockSize valid := by
  obtain ⟨o, hnew⟩ := new_returns hP content deps expiry (add_header_lt hsize) repoPubkey repoSecret
  obtain ⟨valid, hvalid, hfits⟩ := new_fits hlen hnew
  exact ⟨valid, o, hvalid, hnew, hfits, noUnderflow hvalid⟩

omit hlen in
/-- A file with nine dependencies. -/
theorem new_blocks_fit_file :
    let P := reference fun _ _ => false
    ∃ valid o, storeValidValueSize 4096 = some valid ∧
      new P (.file ⟨[116], [], [104, 105]⟩) (.replicate 9 ⟨.replicate 32 7⟩) (some 9) 4096
        ⟨.replicate 32 1⟩ ⟨.replicate 32 2⟩ = some o ∧
      (∀ b ∈ o.blocks, (b.toVec P).length ≤ valid ∧ (b.toVec P).length ≤ storeMaxValueSize) ∧
      NoUnderflow 4096 valid :=
  new_blocks_fit Reference.bareLengths Reference.serdeLaws _ _ _ (by decide) _ _

end Object

end Lofire
