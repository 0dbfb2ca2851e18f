import Lofire.Object.Integrity
import Lofire.Object.Load

/-!
# Objects with arbitrary blocks

The walk of `collectLeaves` stays inside the blocks, whatever they hold: the references of a level
lie in front of the level above, and the walk ends before the first block. So `content` always
returns (`content_returns`). `leaves` returns if the root has a key, and `copy` if the walk has also
met a data chunk (`leaves_copy_return_iff`).
-/

namespace Lofire

open Lib

namespace Object

variable {P : Primitives} {blocks : List Block}

/-! ## The walk stays inside the blocks -/

/-- A level whose references have blocks is read without a panic. -/
theorem collectLevel_returns (refs : List (ObjectId × SymKey)) {i : Nat}
    (h : refs.length + i ≤ blocks.length) (children : List (ObjectId × SymKey)) (out : Collected) :
    ∃ res, collectLevel P blocks refs i children out = some res := by
  induction refs generalizing i children out with
  | nil => exact ⟨_, rfl⟩
  | cons ref refs ih =>
    obtain ⟨id, key⟩ := ref
    rw [List.length_cons] at h
    have hget : blocks[i]? = some (blocks.get ⟨i, by omega⟩) := List.getElem?_eq_getElem (by omega)
    simp only [collectLevel, hget]
    split
    · exact ⟨_, rfl⟩
    · split
      · exact ⟨_, rfl⟩
      · split
        · exact ⟨_, rfl⟩
        · exact ih (by omega) ..
      · exact ih (by omega) ..

/-- The calls of `collectLeaves` that follow the call with the references `parents` at the index
`parentIndex`. -/
inductive Calls (P : Primitives) (blocks : List Block) (parents : List (ObjectId × SymKey))
    (parentIndex : Nat) : List (ObjectId × SymKey) → Nat → Prop
  | first : Calls P blocks parents parentIndex parents parentIndex
  | next {refs children : List (ObjectId × SymKey)} {i : Nat} {out out' : Collected}
      (h : Calls P blocks parents parentIndex refs i)
      (hlevel : collectLevel P blocks refs i [] out = some (.ok (children, out')))
      (hle : ¬ i < children.length) :
      Calls P blocks parents parentIndex children (i - children.length)

/-- Every call has a block for each of its references. -/
theorem Calls.length_le {parents refs : List (ObjectId × SymKey)} {parentIndex i : Nat}
    (h : Calls P blocks parents parentIndex refs i)
    (hparents : parents.length + parentIndex ≤ blocks.length) :
    refs.length + i ≤ blocks.length := by
  induction h with
  | first => exact hparents
  | next _ _ hle ih => omega

/-- The index falls with each level, so the walk ends. -/
theorem collectLeaves_returns (fuel : Nat) {parents : List (ObjectId × SymKey)} {parentIndex : Nat}
    (h : parents.length + parentIndex ≤ blocks.length)
    (hfuel : parentIndex < fuel) (out : Collected) :
    ∃ res, collectLeaves P blocks fuel parents parentIndex out = some res := by
  induction fuel generalizing parents parentIndex out with
  | zero => omega
  | succ fuel ih =>
    obtain ⟨res, hlevel⟩ := collectLevel_returns (P := P) parents h [] out
    rw [collectLeaves, hlevel]
    obtain e | ⟨children, out'⟩ := res
    · exact ⟨_, rfl⟩
    · dsimp only
      split
      · exact ⟨_, rfl⟩
      · rename_i hne
        have hpos : 0 < children.length := List.length_pos_iff.mpr (by simpa using hne)
        split
        · exact ⟨_, rfl⟩
        · exact ih (by omega) (by omega) out'

/-- The walk from the root. -/
theorem collectLeaves_root_returns {o : Object} (hne : o.blocks ≠ []) (ref : ObjectId × SymKey)
    (out : Collected) :
    ∃ res, collectLeaves P o.blocks o.blocks.length [ref] (o.blocks.length - 1) out = some res := by
  have hpos : 0 < o.blocks.length := List.length_pos_iff.mpr hne
  exact collectLeaves_returns _ (by rw [List.length_singleton]; omega) (by omega) out

theorem exists_root {o : Object} (hne : o.blocks ≠ []) : ∃ b, o.root = some b ∧ b ∈ o.blocks :=
  ⟨_, List.getLast?_eq_some_getLast hne, List.getLast_mem hne⟩

theorem exists_content {o : Object} (hne : o.blocks ≠ []) : ∃ res, o.content P = some res := by
  obtain ⟨b, hroot, -⟩ := exists_root hne
  simp only [content, key, id, hroot, Option.map_some]
  cases b.key with
  | none => exact ⟨_, rfl⟩
  | some k =>
    obtain ⟨res, hrun⟩ := collectLeaves_root_returns (P := P) hne (b.id P, k) ⟨none, some []⟩
    simp only [hrun]
    obtain e | out := res
    · exact ⟨_, rfl⟩
    · dsimp only
      split
      · exact ⟨_, rfl⟩
      · exact ⟨_, rfl⟩

/-- Whatever the blocks of an object and its root key are, `content` returns a content or an error,
and its walk does not leave the blocks. -/
theorem content_returns {o : Object} (hne : o.blocks ≠ []) :
    (∃ res, o.content P = some res) ∧
      ∀ ref refs i, Calls P o.blocks [ref] (o.blocks.length - 1) refs i →
        refs.length + i ≤ o.blocks.length := by
  have hpos : 0 < o.blocks.length := List.length_pos_iff.mpr hne
  exact ⟨exists_content hne, fun ref refs i h => h.length_le (by rw [List.length_singleton]; omega)⟩

/-- A block that is its own root, with a key that does not fit and a child that is not there. -/
theorem content_returns_oneBlock :
    let o : Object := ⟨[⟨⟨[⟨.replicate 32 3⟩], .objectIdList [], none, [1, 2]⟩, none,
      some ⟨.replicate 32 4⟩⟩], []⟩
    (∃ res, o.content (reference fun _ _ => false) = some res) ∧
      ∀ ref refs i, Calls (reference fun _ _ => false) o.blocks [ref] (o.blocks.length - 1) refs i →
        refs.length + i ≤ o.blocks.length :=
  content_returns (List.cons_ne_nil _ _)

/-! ## Trees without a data chunk -/

/-- With the key of the reference, the block is an internal node with these keys. -/
structure Opens (P : Primitives) (ref : ObjectId × SymKey) (node : Block × List SymKey) : Prop where
  id_eq : node.1.id P = ref.1
  decrypts : P.blockContent.fromSlice (P.applyKeystream ref.2.slice node.1.content) =
    some (.internalNode node.2)
  length_eq : node.2.length = node.1.children.length

/-- The references that nodes hold. -/
def nodeRefs (nodes : List (Block × List SymKey)) : List (ObjectId × SymKey) :=
  nodes.flatMap fun node => node.1.children.zip node.2

/-- The references are those of internal nodes, and so are the references that these hold, down to a
level without children. -/
inductive Chunkless (P : Primitives) (blocks : List Block) : List (ObjectId × SymKey) → Nat → Prop
  | bottom {refs : List (ObjectId × SymKey)} {i : Nat} {nodes : List (Block × List SymKey)}
      (hopens : List.Forall₂ (Opens P) refs nodes) (hblocks : nodes.map Prod.fst <+: blocks.drop i)
      (hnil : nodeRefs nodes = []) : Chunkless P blocks refs i
  | level {refs : List (ObjectId × SymKey)} {i : Nat} {nodes : List (Block × List SymKey)}
      (hopens : List.Forall₂ (Opens P) refs nodes) (hblocks : nodes.map Prod.fst <+: blocks.drop i)
      (hne : nodeRefs nodes ≠ []) (hle : (nodeRefs nodes).length ≤ i)
      (hbelow : Chunkless P blocks (nodeRefs nodes) (i - (nodeRefs nodes).length)) :
      Chunkless P blocks refs i

/-- The tree that the root key opens is well formed and holds no data. -/
def NoData (P : Primitives) (o : Object) : Prop :=
  ∃ id key, o.id P = some id ∧ o.key = some (some key) ∧
    Chunkless P o.blocks [(id, key)] (o.blocks.length - 1)

/-- Some references are opened by nodes that are in the blocks. -/
theorem Chunkless.opens {refs : List (ObjectId × SymKey)} {i : Nat}
    (h : Chunkless P blocks refs i) :
    ∃ nodes, List.Forall₂ (Opens P) refs nodes ∧ nodes.map Prod.fst <+: blocks.drop i := by
  cases h with
  | bottom hopens hblocks => exact ⟨_, hopens, hblocks⟩
  | level hopens hblocks => exact ⟨_, hopens, hblocks⟩

/-- The root of a tree without data is an internal node. -/
theorem NoData.internalNode {o : Object} (h : o.NoData P) :
    ∃ b key keys, o.root = some b ∧ b.key = some key ∧
      P.blockContent.fromSlice (P.applyKeystream key.slice b.content) =
      some (.internalNode keys) := by
  obtain ⟨id, key, hid, hkey, hchunkless⟩ := h
  obtain ⟨b, hroot, hbkey⟩ := Option.map_eq_some_iff.mp hkey
  obtain ⟨nodes, hopens, hblocks⟩ := hchunkless.opens
  cases hopens with
  | @cons _ node _ _ hnode hnil =>
    cases hnil
    have hlast : o.blocks[o.blocks.length - 1]? = some b := by
      rw [← List.getLast?_eq_getElem?]
      exact hroot
    obtain ⟨rest, hrest⟩ := hblocks
    have hnode_eq : o.blocks[o.blocks.length - 1]? = some node.1 := (getElem?_of_drop hrest.symm).1
    rw [hlast, Option.some.injEq] at hnode_eq
    subst hnode_eq
    exact ⟨node.1, key, node.2, hroot, hbkey, hnode.decrypts⟩

/-- A level of internal nodes yields their references. -/
theorem collectLevel_opens {refs : List (ObjectId × SymKey)} {nodes : List (Block × List SymKey)}
    (hopens : List.Forall₂ (Opens P) refs nodes) {i : Nat}
    (hblocks : nodes.map Prod.fst <+: blocks.drop i) (children : List (ObjectId × SymKey))
    (out : Collected) :
    collectLevel P blocks refs i children out = some (.ok (children ++ nodeRefs nodes, out)) := by
  induction hopens generalizing i children with
  | nil => simp [collectLevel, nodeRefs]
  | @cons ref node refs nodes hnode _ ih =>
    obtain ⟨rest, hrest⟩ := hblocks
    obtain ⟨hget, hdrop⟩ := getElem?_of_drop hrest.symm
    rw [collectLevel, hget]
    simp only [hnode.id_eq, ne_eq, not_true_eq_false, if_false, hnode.decrypts, hnode.length_eq]
    rw [ih ⟨rest, hdrop.symm⟩]
    simp [nodeRefs]

/-- The leaves that a level adds are blocks with their keys. A level that adds none is one of
internal nodes. -/
theorem collectLevel_leaves_ok {refs : List (ObjectId × SymKey)} {i : Nat}
    {children children' : List (ObjectId × SymKey)} {out out' : Collected} {ls : List Block}
    (hout : out.leaves = some ls)
    (h : collectLevel P blocks refs i children out = some (.ok (children', out'))) :
    ∃ new, out'.leaves = some (ls ++ new) ∧
      (∀ leaf ∈ new, ∃ b ∈ blocks, ∃ key, leaf = b.setKey (some key)) ∧
      (new = [] → ∃ nodes, List.Forall₂ (Opens P) refs nodes ∧
        nodes.map Prod.fst <+: blocks.drop i ∧ children' = children ++ nodeRefs nodes) := by
  induction refs generalizing i children out ls with
  | nil =>
    cases h
    exact ⟨[], by simpa using hout, by simp,
      fun _ => ⟨[], .nil, List.nil_prefix, by simp [nodeRefs]⟩⟩
  | cons ref refs ih =>
    obtain ⟨id, key⟩ := ref
    rw [collectLevel] at h
    split at h
    · cases h
    · rename_i block hget
      have hmem : block ∈ blocks := List.mem_of_getElem? hget
      split at h
      · cases h
      · rename_i hid
        split at h
        · cases h
        · rename_i keys hdec
          split at h
          · cases h
          · rename_i hlen
            obtain ⟨new, hnew, hkeys, hnodes⟩ := ih hout h
            refine ⟨new, hnew, hkeys, fun hnil => ?_⟩
            obtain ⟨nodes, hopens, ⟨rest, hrest⟩, hchildren⟩ := hnodes hnil
            refine ⟨(block, keys) :: nodes,
              .cons ⟨(not_not.mp hid).symm, hdec, not_not.mp hlen⟩ hopens,
              ⟨rest, ?_⟩, ?_⟩
            · rw [List.drop_eq_getElem?_toList_append, hget, List.map_cons, List.cons_append, hrest]
              rfl
            · rw [hchildren, List.append_assoc]
              rfl
        · rename_i chunk hdec
          have hpush : (out.push (block.setKey (some key)) chunk).leaves =
              some (ls ++ [block.setKey (some key)]) := by
            rw [Collected.push, hout]
            rfl
          obtain ⟨new, hnew, hkeys, -⟩ := ih hpush h
          refine ⟨block.setKey (some key) :: new, ?_, ?_, by simp⟩
          · rw [hnew, List.append_assoc]
            rfl
          · intro leaf hleaf
            obtain rfl | hleaf := List.mem_cons.mp hleaf
            · exact ⟨block, hmem, key, rfl⟩
            · exact hkeys leaf hleaf

/-- The walk of a tree without data succeeds and collects nothing. -/
theorem Chunkless.collectLeaves {refs : List (ObjectId × SymKey)} {i : Nat}
    (h : Chunkless P blocks refs i) {fuel : Nat} (hfuel : i < fuel) (out : Collected) :
    Object.collectLeaves P blocks fuel refs i out = some (.ok out) := by
  induction h generalizing fuel with
  | bottom hopens hblocks hnil =>
    obtain ⟨fuel, rfl⟩ : ∃ k, fuel = k + 1 := ⟨fuel - 1, by omega⟩
    rw [Object.collectLeaves, collectLevel_opens hopens hblocks, List.nil_append, hnil]
    rfl
  | @level refs i nodes hopens hblocks hne hle _ ih =>
    obtain ⟨fuel, rfl⟩ : ∃ k, fuel = k + 1 := ⟨fuel - 1, by omega⟩
    have hpos : 0 < (nodeRefs nodes).length := List.length_pos_iff.mpr hne
    rw [Object.collectLeaves, collectLevel_opens hopens hblocks, List.nil_append]
    dsimp only
    rw [if_neg (by simpa using hne), if_neg (Nat.not_lt.mpr hle), ih (by omega)]

/-- The leaves that a walk adds are blocks with their keys, and it adds some unless the tree holds
no data. -/
theorem collectLeaves_leaves_ok {fuel : Nat} {refs : List (ObjectId × SymKey)} {i : Nat}
    {out out' : Collected} {ls : List Block} (hout : out.leaves = some ls)
    (h : collectLeaves P blocks fuel refs i out = some (.ok out')) :
    ∃ new, out'.leaves = some (ls ++ new) ∧
      (∀ leaf ∈ new, ∃ b ∈ blocks, ∃ key, leaf = b.setKey (some key)) ∧
      (new = [] → Chunkless P blocks refs i) := by
  induction fuel generalizing refs i out ls with
  | zero => cases h
  | succ fuel ih =>
    rw [collectLeaves] at h
    split at h
    · cases h
    · cases h
    · rename_i children mid hlevel
      obtain ⟨new, hnew, hkeys, hnodes⟩ := collectLevel_leaves_ok hout hlevel
      split at h
      · rename_i hempty
        cases h
        refine ⟨new, hnew, hkeys, fun hnil => ?_⟩
        obtain ⟨nodes, hopens, hblocks, hchildren⟩ := hnodes hnil
        rw [List.nil_append] at hchildren
        exact .bottom hopens hblocks (hchildren ▸ List.isEmpty_iff.mp hempty)
      · rename_i hne
        split at h
        · cases h
        · rename_i hle
          obtain ⟨new', hnew', hkeys', hbelow⟩ := ih hnew h
          refine ⟨new ++ new', by rw [hnew', List.append_assoc], ?_, fun hnil => ?_⟩
          · intro leaf hleaf
            obtain hleaf | hleaf := List.mem_append.mp hleaf
            · exact hkeys leaf hleaf
            · exact hkeys' leaf hleaf
          · obtain ⟨hnil, hnil'⟩ := List.append_eq_nil_iff.mp hnil
            obtain ⟨nodes, hopens, hblocks, hchildren⟩ := hnodes hnil
            rw [List.nil_append] at hchildren
            subst hchildren
            exact .level hopens hblocks (by simpa using hne) (Nat.not_lt.mp hle) (hbelow hnil')

/-! ## `leaves` and `copy` -/

section

variable {o : Object} (hne : o.blocks ≠ [])

include hne in
/-- `leaves` returns if the root has a key. The leaves are blocks with their keys, and there are
some unless the tree holds no data. -/
theorem leaves_returns {k : SymKey} (hkey : o.key = some (some k)) :
    ∃ res, o.leaves P = some res ∧ ∀ ls, res = .ok ls →
      (∀ leaf ∈ ls, ∃ b ∈ o.blocks, ∃ key, leaf = b.setKey (some key)) ∧
      (ls = [] ↔ o.NoData P) := by
  obtain ⟨b, hroot, -⟩ := exists_root hne
  have hid : o.id P = some (b.id P) := by rw [id, hroot, Option.map_some]
  have hpos : 0 < o.blocks.length := List.length_pos_iff.mpr hne
  obtain ⟨res, hrun⟩ := collectLeaves_root_returns (P := P) hne (b.id P, k) ⟨some [], none⟩
  refine ⟨res.map fun out => out.leaves.getD [], ?_, fun ls hls => ?_⟩
  · simp only [leaves, hid, hkey, hrun, Option.bind_eq_bind, Option.bind_some]
    rfl
  · obtain e | out := res
    · cases hls
    · cases hls
      obtain ⟨new, hnew, hkeys, hchunkless⟩ := collectLeaves_leaves_ok rfl hrun
      rw [List.nil_append] at hnew
      simp only [hnew, Option.getD_some]
      refine ⟨hkeys, fun hnil => ⟨_, k, hid, hkey, hchunkless hnil⟩, ?_⟩
      rintro ⟨id', k', hid', hkey', h⟩
      rw [hid, Option.some.injEq] at hid'
      rw [hkey, Option.some.injEq, Option.some.injEq] at hkey'
      subst hid' hkey'
      have hrun' := h.collectLeaves (show o.blocks.length - 1 < o.blocks.length by omega)
        ⟨some [], none⟩
      rw [hrun, Option.some.injEq, Except.ok.injEq] at hrun'
      rw [hrun', Option.some.injEq] at hnew
      exact hnew.symm

theorem leaves_of_no_key (hkey : o.key = some none) : o.leaves P = none := by
  unfold leaves
  cases o.id P with
  | none => rfl
  | some id => simp [hkey]

end

theorem mapM_key_returns {bs : List Block} (h : ∀ b ∈ bs, b.key.isSome) :
    ∃ keys, bs.mapM Block.key = some keys := by
  induction bs with
  | nil => exact ⟨[], rfl⟩
  | cons b bs ih =>
    rw [List.forall_mem_cons] at h
    obtain ⟨key, hkey⟩ := Option.isSome_iff_exists.mp h.1
    obtain ⟨keys, hkeys⟩ := ih h.2
    exact ⟨key :: keys, by simp [List.mapM_cons, hkey, hkeys]⟩

/-- Parents are made for blocks with keys, one for each group, and they have keys. -/
theorem makeParents_returns (convKey : Vector UInt8 32) (rootDeps : ObjectDeps)
    (expiry : Option Timestamp) {groups : List (List Block)}
    (hkeys : ∀ group ∈ groups, ∀ b ∈ group, b.key.isSome) {acc : List Block}
    (hacc : ∀ b ∈ acc, b.key.isSome) :
    ∃ parents, makeParents P convKey rootDeps expiry groups acc = some parents ∧
      parents.length = acc.length + groups.length ∧ ∀ b ∈ parents, b.key.isSome := by
  induction groups generalizing acc with
  | nil => exact ⟨acc, rfl, rfl, hacc⟩
  | cons group groups ih =>
    rw [List.forall_mem_cons] at hkeys
    obtain ⟨keys, hmap⟩ := mapM_key_returns hkeys.1
    let deps := if acc.isEmpty && groups.isEmpty then rootDeps else .objectIdList []
    let parent := makeBlock P (P.blockContent.toVec (.internalNode keys)) convKey
      (group.map (Block.id P)) deps expiry
    have hacc' : ∀ b ∈ acc ++ [parent], b.key.isSome := by
      intro b hb
      obtain hb | hb := List.mem_append.mp hb
      · exact hacc b hb
      · rw [List.mem_singleton.mp hb]
        rfl
    obtain ⟨parents, hrun, hlen, hparents⟩ := ih hkeys.2 hacc'
    refine ⟨parents, ?_, ?_, hparents⟩
    · rw [makeParents, hmap]
      exact hrun
    · rw [hlen, List.length_append, List.length_singleton, List.length_cons, Nat.add_assoc,
        Nat.add_comm 1]

/-- `makeTree` returns if the blocks have keys. -/
theorem makeTree_returns (convKey : Vector UInt8 32) (rootDeps : ObjectDeps)
    (expiry : Option Timestamp) {arity : Nat} (harity : 2 ≤ arity) {fuel : Nat} {bs : List Block}
    (hkeys : ∀ b ∈ bs, b.key.isSome) (hfuel : bs.length < fuel) :
    ∃ parents, makeTree P convKey rootDeps expiry arity fuel bs = some parents := by
  induction fuel generalizing bs with
  | zero => omega
  | succ fuel ih =>
    have hgroups : ∀ group ∈ chunks arity bs, ∀ b ∈ group, b.key.isSome := by
      intro group hgroup b hb
      refine hkeys b ?_
      rw [← chunks_flatten (show 0 < arity by omega) bs]
      exact List.mem_flatten_of_mem hgroup hb
    obtain ⟨parents, hrun, hlen, hparents⟩ :=
      makeParents_returns (P := P) convKey rootDeps expiry hgroups (List.forall_mem_nil _)
    simp only [makeTree, hrun, Option.bind_eq_bind, Option.bind_some]
    split
    · rename_i hmany
      have hless : parents.length < bs.length := by
        rw [List.length_nil, Nat.zero_add] at hlen
        rw [hlen] at hmany ⊢
        refine chunks_length_lt harity ?_
        by_contra hle
        rw [chunks_length (by omega), Nat.lt_div_iff_mul_lt (by omega)] at hmany
        omega
      obtain ⟨great, hgreat⟩ := ih hparents (by omega)
      exact ⟨parents ++ great, by rw [hgreat]; rfl⟩
    · exact ⟨parents, rfl⟩

/-- `copy` returns if the root has a key and the tree does not lack data. -/
theorem copy_returns_iff {o : Object} (hne : o.blocks ≠ [])
    (hlen : ∀ b ∈ o.blocks, b.content.length + HEADER < 2 ^ 64) (expiry : Option Timestamp)
    (repoPubkey : PubKey) (repoSecret : SymKey) :
    (∃ res, o.copy P expiry repoPubkey repoSecret = some res) ↔
      (∃ k, o.key = some (some k)) ∧ ¬ o.NoData P := by
  obtain ⟨root, hroot, -⟩ := exists_root hne
  have hrootKey : o.key = some root.key := by rw [key, hroot, Option.map_some]
  obtain hkey | ⟨k, hkey⟩ := Option.eq_none_or_eq_some root.key
  · rw [hkey] at hrootKey
    have hnone : o.copy P expiry repoPubkey repoSecret = none := by
      unfold copy
      rw [leaves_of_no_key hrootKey]
      rfl
    simp [hnone, hrootKey]
  · rw [hkey] at hrootKey
    rw [and_iff_right ⟨k, hrootKey⟩]
    obtain ⟨res, hleaves, hls⟩ := leaves_returns (P := P) hne hrootKey
    unfold copy
    rw [hleaves, Option.bind_eq_bind, Option.bind_some]
    obtain e | ls := res
    · -- a malformed tree
      refine iff_of_true ⟨_, rfl⟩ ?_
      rintro ⟨id, k', hid, hkey', hchunkless⟩
      have hpos : 0 < o.blocks.length := List.length_pos_iff.mpr hne
      have hrun := hchunkless.collectLeaves (show o.blocks.length - 1 < o.blocks.length by omega)
        ⟨some [], none⟩
      simp only [leaves, hid, hkey', hrun, Option.bind_eq_bind, Option.bind_some] at hleaves
      cases hleaves
    · obtain ⟨hleaf, hnil⟩ := hls ls rfl
      rw [← hnil]
      cases ls with
      | nil => simp
      | cons leaf ls =>
        refine iff_of_true ?_ (List.cons_ne_nil leaf ls)
        obtain ⟨b, hb, k', rfl⟩ := hleaf leaf List.mem_cons_self
        obtain ⟨valid, hvalid⟩ := storeValidValueSize_eq_some (hlen b hb)
        have hkeys : ∀ c ∈ (b.setKey (some k') :: ls).map (fun block => block.setExpiry expiry),
            c.key.isSome := by
          intro c hc
          obtain ⟨leaf, hmem, rfl⟩ := List.mem_map.mp hc
          obtain ⟨b', -, key', rfl⟩ := hleaf leaf hmem
          rfl
        obtain ⟨parents, hparents⟩ :=
          makeTree_returns (P := P) (convergenceKey P repoPubkey repoSecret)
          root.deps expiry (arity_ge (storeValidValueSize_bounds hvalid).1)
          hkeys (Nat.lt_succ_self _)
        have hcontent : (b.setKey (some k')).content.length = b.content.length := rfl
        simp only [List.head?_cons, Option.bind_eq_bind, Option.bind_some, hcontent, hvalid, hroot,
          hparents]
        exact ⟨_, rfl⟩

/-! ## Objects that are loaded -/

section

variable {σ : Type} {get : BlockId → StoreM σ (Except StorageError Block)} {s s' : σ}

/-- An object that is loaded has blocks. -/
theorem load_blocks_ne_nil {fuel : Nat} {id : ObjectId} {key : Option SymKey} {o : Object}
    (h : load P get fuel id key s = .ok (some (.ok o)) s') : o.blocks ≠ [] := by
  cases fuel with
  | zero => cases h
  | succ fuel =>
    obtain ⟨res, s₁, -, h⟩ := StoreM.bind_ok.mp h
    obtain _ | ⟨blocks, missing⟩ := res
    · cases h
    · dsimp only at h
      split at h
      · cases h
      · generalize (if key.isSome then setRootKey blocks key else blocks) = loaded at h
        cases hlast : loaded.getLast? with
        | none =>
          rw [hlast] at h
          cases h
        | some root =>
          have hloaded : loaded ≠ [] := by
            rintro rfl
            cases hlast
          rw [hlast] at h
          dsimp only at h
          cases hdeps : root.deps with
          | objectIdList depsVec =>
            rw [hdeps] at h
            cases h
            exact hloaded
          | depListRef ref =>
            rw [hdeps] at h
            obtain ⟨res, s₂, -, h⟩ := StoreM.bind_ok.mp h
            obtain _ | e | obj := res
            · cases h
            · cases h
            · dsimp only at h
              rcases hcontent : obj.content P with _ | _ | c
              · rw [hcontent] at h
                cases h
              · rw [hcontent] at h
                cases h
              · rw [hcontent] at h
                cases c with
                | depList => 
                  cases h
                  exact hloaded
                | file => cases h
                | commit => cases h
                | commitBody => cases h

/-- Of an object that is loaded from any store, `leaves` returns exactly if the root has a key, and
`copy` exactly if moreover the tree is malformed or holds data. A block has less than `2 ^ 63`
bytes, as any `Vec`. -/
theorem leaves_copy_return_iff {fuel : Nat} {id : ObjectId} {key : Option SymKey} {o : Object}
    (hload : load P get fuel id key s = .ok (some (.ok o)) s')
    (hlen : ∀ b ∈ o.blocks, b.content.length < 2 ^ 63) (expiry : Option Timestamp)
    (repoPubkey : PubKey) (repoSecret : SymKey) :
    ((∃ res, o.leaves P = some res) ∧ (∃ res, o.copy P expiry repoPubkey repoSecret = some res) ↔
      (∃ k, o.key = some (some k)) ∧ ¬ o.NoData P) ∧
    ((∃ res, o.leaves P = some res) ↔ ∃ k, o.key = some (some k)) := by
  have hne := load_blocks_ne_nil hload
  have hleaves : (∃ res, o.leaves P = some res) ↔ ∃ k, o.key = some (some k) := by
    obtain ⟨root, hroot, -⟩ := exists_root hne
    have hrootKey : o.key = some root.key := by rw [Object.key, hroot, Option.map_some]
    obtain hkey | ⟨k, hkey⟩ := Option.eq_none_or_eq_some root.key
    · rw [hkey] at hrootKey
      simp [leaves_of_no_key hrootKey, hrootKey]
    · rw [hkey] at hrootKey
      obtain ⟨res, hres, -⟩ := leaves_returns (P := P) hne hrootKey
      exact iff_of_true ⟨res, hres⟩ ⟨k, hrootKey⟩
  have hcopy := copy_returns_iff (P := P) hne (fun b hb => by
    have := hlen b hb
    simp only [HEADER, PAGE_SIZE, MIN_SIZE]
    omega) expiry repoPubkey repoSecret
  refine ⟨?_, hleaves⟩
  rw [hleaves, hcopy, and_iff_right_of_imp And.left]

end

/-- A hash map that holds one block without children and dependencies. -/
def oneBlock (P : Primitives) (content : Bytes) : HashMapRepoStore :=
  let b : Block := ⟨⟨[], .objectIdList [], none, content⟩, none, none⟩
  ⟨Function.update (fun _ => none) (b.id P) (some b)⟩

/-- The block is loaded, with the key that is asked for. -/
theorem load_oneBlock (content : Bytes) (key : Option SymKey) :
    load P HashMapRepoStore.get 1 (P.blockId ⟨[], .objectIdList [], none, content⟩) key
        (oneBlock P content) =
      .ok (some (.ok ⟨[⟨⟨[], .objectIdList [], none, content⟩, none, key⟩], []⟩))
      (oneBlock P content) := by
  have hget : HashMapRepoStore.get (P.blockId ⟨[], .objectIdList [], none, content⟩)
      (oneBlock P content) =
        .ok (.ok ⟨⟨[], .objectIdList [], none, content⟩, none, none⟩) (oneBlock P content) := by
    have hview : (oneBlock P content).view (P.blockId ⟨[], .objectIdList [], none, content⟩) =
        .ok ⟨⟨[], .objectIdList [], none, content⟩, none, none⟩ := by
      simp [HashMapRepoStore.view, oneBlock, Block.id, Block.getId]
    rw [HashMapRepoStore.get_run, hview]
  cases key with
  | none => simp [load, loadTree, loadLevel, hget, bind, EStateM.bind, pure, EStateM.pure]
  | some k =>
    have hroot : setRootKey [⟨⟨[], .objectIdList [], none, content⟩, none, none⟩] (some k) =
      [⟨⟨[], .objectIdList [], none, content⟩, none, some k⟩] := rfl
    simp [load, loadTree, loadLevel, hget, hroot, bind, EStateM.bind, pure, EStateM.pure]

/-- A block that holds data, loaded with its key, is copied. -/
theorem leaves_copy_return_oneBlock :
    let P := reference fun _ _ => false
    let k : SymKey := ⟨.replicate 32 5⟩
    let o : Object := ⟨[⟨⟨[], .objectIdList [], none,
      P.applyKeystream k.slice (P.blockContent.toVec (.dataChunk [1, 2]))⟩, none, some k⟩], []⟩
    (∃ res, o.leaves P = some res) ∧ ∃ res,
    o.copy P none ⟨.replicate 32 1⟩ ⟨.replicate 32 2⟩ = some res := by
  intro P k o
  have hlen : ∀ b ∈ o.blocks, b.content.length < 2 ^ 63 := by
    intro b hb
    rw [List.mem_singleton.mp hb]
    show (P.applyKeystream _ _).length < _
    rw [Primitives.applyKeystream_length]
    decide
  refine (leaves_copy_return_iff (load_oneBlock _ (some k)) hlen none _ _).1.mpr ⟨⟨k, rfl⟩, ?_⟩
  intro h
  obtain ⟨b, key, keys, hroot, hkey, hdec⟩ := h.internalNode
  cases hroot
  cases hkey
  change P.blockContent.fromSlice (P.applyKeystream k.slice (P.applyKeystream k.slice _)) =
    _ at hdec
  rw [Primitives.applyKeystream_twice, Reference.serdeLaws.blockContent] at hdec
  cases hdec

/-- The leaves of an object that was loaded without a key are not to be had. -/
theorem not_leaves_copy_return :
    ¬ ∀ (s s' : HashMapRepoStore) (fuel : Nat) (id : ObjectId) (key : Option SymKey) (o : Object),
      load (reference fun _ _ => false) HashMapRepoStore.get fuel id key s = .ok (some (.ok o)) s' →
      ∀ (expiry : Option Timestamp) (repoPubkey : PubKey) (repoSecret : SymKey),
        (∃ res, o.leaves (reference fun _ _ => false) = some res) ∧
        ∃ res, o.copy (reference fun _ _ => false) expiry repoPubkey repoSecret = some res := by
  intro h
  obtain ⟨⟨res, hres⟩, -⟩ := h _ _ _ _ _ _ (load_oneBlock [1, 2] none) none ⟨.replicate 32 1⟩
    ⟨.replicate 32 2⟩
  cases hres

end Object

end Lofire
