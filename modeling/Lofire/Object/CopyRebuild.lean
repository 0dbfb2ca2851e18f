import Lofire.Object.CopyContent
import Lofire.Object.Rounding

/-!
# A copy agrees with a rebuilt object

A full leaf is so large that its size is rounded to the valid value size that the object was built
with (`storeValidValueSize_leaf`). So `copy` finds the arity of the tree, unless there is only one
leaf, where the arity does not matter, and makes the blocks that `new` makes with the new expiry
(`copy_eq_new`).
-/

namespace Lofire

open Lib

/-! ## Rounding -/

/-- The size of a full leaf is rounded to the size that it was made for. -/
theorem storeValidValueSize_leaf {size valid leaf : Nat} (h : storeValidValueSize size = some valid)
    (hlow : valid ≤ leaf + 14) (hhigh : leaf ≤ valid) : storeValidValueSize leaf = some valid := by
  obtain ⟨pages, hpos, hmax, hvalid⟩ := storeValidValueSize_pages h
  rw [@storeValidValueSize_eq pages leaf hmax]
  · rw [← hvalid, Nat.add_sub_cancel]
  · simp only [PAGE_SIZE, HEADER, MIN_SIZE] at hvalid ⊢
    omega
  · omega

namespace Object

variable {P : Primitives}

/-! ## The arity -/

/-- What is stored and referred to of a block. -/
def blockData (P : Primitives) (b : Block) : BlockId × Option SymKey × Bytes :=
  (b.id P, b.key, b.toVec P)

theorem ShowsKey.blockData_eq {n : Node P} {b : Block} (h : ShowsKey n b) :
    blockData P b = blockData P n.made := by
  simp only [blockData, h.id_eq, h.key_eq, Block.toVec, h.body_eq, Node.made_id, Node.made_key,
    Node.made_toBlockBody]

theorem map_blockData {nodes : List (Node P)} {bs : List Block}
    (h : List.Forall₂ ShowsKey nodes bs) :
    bs.map (blockData P) = (nodes.map Node.made).map (blockData P) := by
  induction h with
  | nil => rfl
  | cons hb _ ih => rw [List.map_cons, List.map_cons, List.map_cons, ih, hb.blockData_eq]

theorem leafNodes_withExpiry (hP : P.SerdeLaws) (convKey : Vector UInt8 32)
    (expiry expiry' : Option Timestamp)
    (validBlockSize : Nat) (content : ObjectContent) :
    (leafNodes hP convKey expiry validBlockSize content).map (·.withExpiry expiry') =
      leafNodes hP convKey expiry' validBlockSize content := by
  rw [leafNodes, leafNodes, List.map_map]
  rfl

/-- The tree over one leaf is the same for every arity. -/
theorem makeTree_singleton (convKey : Vector UInt8 32) (rootDeps : ObjectDeps)
    (expiry : Option Timestamp)
    {arity arity' : Nat} (h : 1 ≤ arity) (h' : 1 ≤ arity') (fuel : Nat) (leaf : Block) :
    makeTree P convKey rootDeps expiry arity (fuel + 1) [leaf] =
      makeTree P convKey rootDeps expiry arity' (fuel + 1) [leaf] := by
  have hcut : ∀ n, 1 ≤ n → chunks n [leaf] = [[leaf]] := fun n hn =>
    chunks_of_length_le (List.cons_ne_nil _ _) hn
  rw [makeTree, makeTree, hcut arity h, hcut arity' h']
  cases hkey : leaf.key with
  | none => simp [makeParents, hkey]
  | some k => simp [makeParents, hkey]

/-- A tree over leaves of a created object is the same for the arity that a copy finds. -/
theorem arity_found (hP : P.SerdeLaws) (hlen : P.BareLengths) {convKey : Vector UInt8 32}
    {expiry : Option Timestamp} {blockSize valid valid' : Nat} {content : ObjectContent}
    (hvalid : storeValidValueSize blockSize = some valid) {leaf : Node P}
    (hleaf : (leafNodes hP convKey expiry valid content).head? = some leaf)
    (hvalid' : storeValidValueSize leaf.body.content.length = some valid') :
    (leafNodes hP convKey expiry valid content).length = 1 ∨ valid' = valid := by
  obtain ⟨hmin, hmax⟩ := storeValidValueSize_bounds hvalid
  simp only [MIN_SIZE] at hmin
  simp only [storeMaxValueSize, MAX_FACTOR, PAGE_SIZE, HEADER, MIN_SIZE] at hmax
  unfold leafNodes at hleaf ⊢
  rw [List.length_map]
  rcases hcut : chunks (valid - EMPTY_BLOCK_SIZE - DATA_VARINT_EXTRA)
    (P.objectContent.toVec content) with
    _ | ⟨c, _ | ⟨c', rest⟩⟩
  · rw [hcut] at hleaf
    cases hleaf
  · exact .inl rfl
  · right
    rw [hcut] at hleaf
    cases hleaf
    have hchunk : c.length = valid - EMPTY_BLOCK_SIZE - DATA_VARINT_EXTRA :=
      length_of_chunks_head hcut
    simp only [EMPTY_BLOCK_SIZE, DATA_VARINT_EXTRA] at hchunk
    have hsize : (P.blockContent.toVec (.dataChunk c)).length =
      1 + (Codec.uintLength c.length + c.length) :=
      hlen.dataChunk c
    have hpos : 1 ≤ Codec.uintLength c.length := Nat.succ_le_succ (Nat.zero_le _)
    have hvarint : Codec.uintLength c.length ≤ 3 := Codec.uintLength_le (by decide) (by omega)
    change storeValidValueSize (P.applyKeystream _ _).length = _ at hvalid'
    rw [Primitives.applyKeystream_length,
      storeValidValueSize_leaf hvalid (by omega) (by omega), Option.some.injEq] at hvalid'
    exact hvalid'.symm

theorem id_eq_blockData (o : Object) :
    o.id P = (o.blocks.map (blockData P)).getLast?.map Prod.fst := by
  rw [List.getLast?_map, Option.map_map]
  rfl

/-- A copy of a created object of more than one block is the object that `new` creates with the new
expiry. The arity is found from the first leaf, unless there is only one. -/
theorem copy_eq_new (hP : P.SerdeLaws) (hlen : P.BareLengths)
    {content : ObjectContent} {deps : List ObjectId}
    {expiry : Option Timestamp} {blockSize : Nat} {repoPubkey : PubKey}
    {repoSecret : SymKey} {o : Object}
    (hnew : new P content deps expiry blockSize repoPubkey repoSecret = some o)
    (hmany : 1 < o.blocks.length)
    (expiry' : Option Timestamp) :
    ∃ o' o'', o.copy P expiry' repoPubkey repoSecret = some (.ok o') ∧
      new P content deps expiry' blockSize repoPubkey repoSecret = some o'' ∧
      o'.blocks.map (blockData P) = o''.blocks.map (blockData P) ∧
      (expiry' = expiry → o'.id P = o.id P) ∧
      ∃ ls leaf valid valid', o.leaves P = some (.ok ls) ∧ ls.head? = some leaf ∧
        storeValidValueSize blockSize = some valid ∧
        storeValidValueSize leaf.content.length = some valid' ∧
        (ls.length = 1 ∨ valid' = valid) := by
  have h := hnew
  unfold new at h
  obtain ⟨valid, hvalid, h⟩ := Option.bind_eq_some_iff.mp h
  obtain ⟨objDeps, hdeps, h⟩ := Option.bind_eq_some_iff.mp h
  have hmin := (storeValidValueSize_bounds hvalid).1
  have hbig : ¬ FitsInRoot P content deps valid := by
    intro hfits
    rw [newWithDeps_single hfits] at h
    cases h
    simp at hmany
  -- the object, its copy and the rebuilt object
  obtain ⟨parents, root, -, hobject, hT, -, hroot, -⟩ :=
    newWithDeps_chunks hP objDeps expiry hmin hbig repoPubkey repoSecret
  obtain ⟨parents', root', hrebuilt, hobject', -⟩ :=
    newWithDeps_chunks hP objDeps expiry' hmin hbig repoPubkey repoSecret
  have ho := h.symm.trans hobject
  rw [Option.some.injEq] at ho
  have hrooted : o.Rooted (leafNodes hP (convergenceKey P repoPubkey repoSecret)
    expiry valid content)
      (leafNodes hP (convergenceKey P repoPubkey repoSecret) expiry valid content ++ parents)
      root := by
    rw [ho]
    exact ⟨shows_map_made _, by simp [key, Object.root], hT⟩
  obtain ⟨_, -, hfits⟩ := new_fits hlen hnew
  obtain ⟨r, hr⟩ := hrooted.copy_returns (hrooted.content_lt hlen
    fun b hb => (hfits b hb).2) expiry'
    repoPubkey repoSecret
  obtain ⟨o', great, great', rfl, hcopy⟩ := hrooted.copy_eq hP hr
  obtain ⟨leaf, valid', hhead, hvalid', htree⟩ := hcopy.tree
  have harity := arity_found hP hlen hvalid hhead hvalid'
  rw [leafNodes_withExpiry, hroot] at htree
  have hlength : (leafNodes hP (convergenceKey P repoPubkey repoSecret)
    expiry valid content).length =
      (leafNodes hP (convergenceKey P repoPubkey repoSecret) expiry' valid content).length := by
    rw [leafNodes, leafNodes, List.length_map, List.length_map]
  have hlevels : (great ++ [great']).map Node.made = (parents' ++ [root']).map Node.made := by
    rw [hlength] at htree harity
    rw [← Option.some.injEq, ← htree, ← hrebuilt]
    obtain hone | rfl := harity
    · obtain ⟨x, hx⟩ := List.length_eq_one_iff.mp hone
      rw [hx]
      have hmin' := (storeValidValueSize_bounds hvalid').1
      exact makeTree_singleton _ _ _ (Nat.le_of_succ_le (arity_ge hmin'))
        (Nat.le_of_succ_le (arity_ge hmin)) _ _
    · rfl
  have hnew' : new P content deps expiry' blockSize repoPubkey repoSecret = some
      ⟨(leafNodes hP (convergenceKey P repoPubkey repoSecret) expiry' valid content ++ parents' ++
        [root']).map Node.made, deps⟩ := by
    simp only [new, hvalid, hdeps, Option.bind_eq_bind, Option.bind_some]
    exact hobject'
  have hblocks : o'.blocks.map (blockData P) =
      ((leafNodes hP (convergenceKey P repoPubkey repoSecret) expiry' valid content ++ parents' ++
        [root']).map Node.made).map (blockData P) := by
    obtain ⟨copies, hcopies, hblocks⟩ := hcopy.blocks
    rw [leafNodes_withExpiry] at hcopies
    rw [hblocks, hlevels, List.map_append, map_blockData hcopies,
      ← List.map_append, ← List.map_append,
      List.append_assoc]
  obtain ⟨ls, hls, hleaves⟩ := hrooted.leaves_eq
  obtain ⟨b, hb, hshows⟩ := forall₂_head hls hhead
  have hcontent : b.content = leaf.body.content := by rw [hshows.body_eq]
  refine ⟨o', _, hr, hnew', hblocks, ?_, ls, b, valid, valid', hleaves, hb, hvalid, ?_, ?_⟩
  · rintro rfl
    rw [hnew, Option.some.injEq] at hnew'
    rw [id_eq_blockData, id_eq_blockData, hblocks, hnew']
  · rw [hcontent, hvalid']
  · rwa [← hls.length_eq]

/-- A file that does not fit in the root with its 123 dependencies. -/
theorem copy_eq_new_file :
    let P := reference fun _ _ => false
    let deps : List ObjectId := .replicate 123 ⟨.replicate 32 7⟩
    ∃ o o' o'', new P (.file ⟨[116], [], [104, 105]⟩) deps (some 9) 4072 ⟨.replicate 32 1⟩
        ⟨.replicate 32 2⟩ = some o ∧
      o.copy P none ⟨.replicate 32 1⟩ ⟨.replicate 32 2⟩ = some (.ok o') ∧
      new P (.file ⟨[116], [], [104, 105]⟩) deps none 4072 ⟨.replicate 32 1⟩
      ⟨.replicate 32 2⟩ = some o'' ∧
      o'.blocks.map (blockData P) = o''.blocks.map (blockData P) := by
  intro P deps
  obtain ⟨o, hnew⟩ :=
    new_returns (P := P) Reference.serdeLaws (.file ⟨[116], [], [104, 105]⟩) deps (some 9)
    (show 4072 + HEADER < 2 ^ 64 by decide) ⟨.replicate 32 1⟩ ⟨.replicate 32 2⟩
  have hmany : 1 < o.blocks.length := by
    obtain ⟨valid, objDeps, below, root, hvalid, -, hbuilt, hfits, -⟩ :=
      built_of_new Reference.serdeLaws hnew
    have hsize : valid = 4072 := Option.some.inj (hvalid.symm.trans (by decide))
    subst hsize
    have hbelow : below ≠ [] := by
      rw [Ne, hfits, FitsInRoot, List.length_replicate]
      simp only [EMPTY_BLOCK_SIZE, DATA_VARINT_EXTRA, BLOCK_ID_SIZE]
      omega
    have hpos := List.length_pos_iff.mpr hbelow
    rw [hbuilt.blocks_eq, List.length_map, List.length_append, List.length_singleton]
    omega
  obtain ⟨o', o'', hcopy, hnew', hblocks, -⟩ :=
    copy_eq_new Reference.serdeLaws Reference.bareLengths
    hnew hmany none
  exact ⟨o, o', o'', hnew, hcopy, hnew', hblocks⟩

end Object

end Lofire
