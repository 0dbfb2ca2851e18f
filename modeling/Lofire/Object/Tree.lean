import Lofire.Lib.Lists
import Lofire.Object

/-!
# The Merkle tree of an object

A `Node` is a block body together with the key that decrypts it and the content found there. A
`Tower` is a list of levels of nodes, each level referring to the nodes of the one below it in
order, with the data chunks at the bottom. `makeTree` builds towers (`makeTree_tower`), and what
`new` returns is one tower under one root (`newWithDeps_spec`).
-/

namespace Lofire

open Lib

/-! ## Nodes -/

/-- A block body and what its key finds in it. -/
structure Node (P : Primitives) where
  body : BlockBody
  key : SymKey
  content : BlockContentV0
  decrypts : P.blockContent.fromSlice (P.applyKeystream key.slice body.content) = some content

namespace Node

variable {P : Primitives}

def id (n : Node P) : BlockId := P.blockId n.body

/-- The id and the key of a node, as its parent holds them. -/
def ref (n : Node P) : ObjectId × SymKey := (n.id, n.key)

/-- The bytes of a data chunk. -/
def chunk (n : Node P) : Bytes :=
  match n.content with
  | .dataChunk chunk => chunk
  | .internalNode _ => []

/-- The block that `makeBlock` creates for a node. -/
def made (n : Node P) : Block := { n.body with id? := some n.id, key := some n.key }

/-- The block `b` carries the body of `n`; its cached id is absent or correct. -/
structure Shows (n : Node P) (b : Block) : Prop where
  body_eq : b.toBlockBody = n.body
  valid : b.Valid P

theorem Shows.id_eq {n : Node P} {b : Block} (h : n.Shows b) : b.id P = n.id := by
  rw [h.valid.id_eq, h.body_eq, id]

theorem shows_made (n : Node P) : n.Shows n.made := ⟨rfl, rfl⟩

theorem Shows.setKey {n : Node P} {b : Block} (h : n.Shows b) (key : Option SymKey) :
    n.Shows (b.setKey key) := ⟨h.body_eq, h.valid⟩

theorem map_id_of_shows {nodes : List (Node P)} {bs : List Block}
    (h : List.Forall₂ Node.Shows nodes bs) : bs.map (Block.id P) = nodes.map Node.id := by
  induction h with
  | nil => rfl
  | cons hb _ ih => rw [List.map_cons, List.map_cons, ih, hb.id_eq]

@[simp] theorem made_toBlockBody (n : Node P) : n.made.toBlockBody = n.body := rfl

@[simp] theorem made_key (n : Node P) : n.made.key = some n.key := rfl

@[simp] theorem made_id (n : Node P) : n.made.id P = n.id := rfl

theorem made_valid (n : Node P) : n.made.Valid P := rfl

/-- A leaf of the tree. -/
def IsLeaf (n : Node P) : Prop := (∃ chunk, n.content = .dataChunk chunk) ∧ n.body.children = []

/-- `n` refers to the nodes `group`. -/
structure IsParent (n : Node P) (group : List (Node P)) : Prop where
  content_eq : n.content = .internalNode (group.map Node.key)
  children_eq : n.body.children = group.map Node.id

end Node

/-- The child lists of blocks that show a level, joined, are the ids of the level below. -/
theorem Node.children_flatMap {P : Primitives} {top : List (Node P)} {tops : List Block}
    {groups : List (List (Node P))} (h : List.Forall₂ Node.Shows top tops)
    (hgroups : List.Forall₂ Node.IsParent top groups) :
    tops.flatMap (fun b => b.children) = groups.flatten.map Node.id := by
  induction h generalizing groups with
  | nil =>
    cases hgroups
    rfl
  | cons hb _ ih =>
    cases hgroups with
    | cons hparent hgroups =>
      rw [List.flatMap_cons, ih hgroups, hb.body_eq, hparent.children_eq]
      simp

/-! ## Towers -/

/-- Levels of nodes above the leaves `leaves`: `top` is the last level and `below` holds the levels
before it, from the leaves up. -/
inductive Tower (P : Primitives) (leaves : List (Node P)) :
    List (Node P) → List (Node P) → Prop
  | leaves (hne : leaves ≠ []) (h : ∀ n ∈ leaves, n.IsLeaf) : Tower P leaves [] leaves
  | parents {below mid top : List (Node P)} {groups : List (List (Node P))}
      (ht : Tower P leaves below mid) (hne : top ≠ [])
      (h : List.Forall₂ Node.IsParent top groups) (hmid : groups.flatten = mid) :
      Tower P leaves (below ++ mid) top

theorem Tower.top_ne_nil {P : Primitives} {leaves below top : List (Node P)}
    (h : Tower P leaves below top) : top ≠ [] := by
  cases h with
  | leaves hne _ => exact hne
  | parents _ hne _ _ => exact hne

/-- The nodes of a tower refer to nodes below them. -/
theorem Tower.children_mem {P : Primitives} {leaves below top : List (Node P)}
    (hT : Tower P leaves below top) :
    ∀ n ∈ below ++ top, ∀ id ∈ n.body.children, ∃ m ∈ below, m.id = id := by
  induction hT with
  | leaves _ hleaf =>
    intro n hn id hid
    rw [(hleaf n (by simpa using hn)).2] at hid
    cases hid
  | @parents below mid top groups _ _ hgroups hmid ih =>
    intro n hn id hid
    rcases List.mem_append.mp hn with hn | hn
    · obtain ⟨m, hm, hmid⟩ := ih n hn id hid
      exact ⟨m, List.mem_append_left _ hm, hmid⟩
    · obtain ⟨group, hgroup, hparent⟩ := forall₂_mem_left hgroups hn
      rw [hparent.children_eq] at hid
      obtain ⟨m, hm, rfl⟩ := List.mem_map.mp hid
      refine ⟨m, List.mem_append_right _ ?_, rfl⟩
      rw [← hmid]
      exact List.mem_flatten_of_mem hgroup hm

namespace Object

variable {P : Primitives}

/-! ## Building -/

/-- The node of the block that `makeBlock` creates for `content`. -/
def makeNode (hP : P.SerdeLaws) (convKey : Vector UInt8 32) (content : BlockContentV0)
    (children : List ObjectId) (deps : ObjectDeps) (expiry : Option Timestamp) : Node P where
  body := ⟨children, deps, expiry,
    P.applyKeystream (P.keyedHash convKey (P.blockContent.toVec content))
      (P.blockContent.toVec content)⟩
  key := ⟨P.keyedHash convKey (P.blockContent.toVec content)⟩
  content := content
  decrypts := by
    rw [Primitives.applyKeystream_twice]
    exact hP.blockContent content

theorem makeBlock_eq_made (hP : P.SerdeLaws) (convKey : Vector UInt8 32) (content : BlockContentV0)
    (children : List ObjectId) (deps : ObjectDeps) (expiry : Option Timestamp) :
    makeBlock P (P.blockContent.toVec content) convKey children deps expiry =
      (makeNode hP convKey content children deps expiry).made := rfl

theorem mapM_key_made (nodes : List (Node P)) :
    (nodes.map Node.made).mapM Block.key = some (nodes.map Node.key) := by
  induction nodes with
  | nil => rfl
  | cons n nodes ih =>
    simp only [List.map_cons, List.mapM_cons, Node.made_key, ih, Option.bind_eq_bind,
      Option.bind_some]
    rfl

/-- What the loop of `makeTree` makes of the groups of one level. -/
theorem makeParents_spec (hP : P.SerdeLaws) (convKey : Vector UInt8 32) (rootDeps : ObjectDeps)
    (expiry : Option Timestamp) (groups : List (List (Node P))) (acc : List Block) :
    ∃ top : List (Node P),
      makeParents P convKey rootDeps expiry (groups.map (List.map Node.made)) acc =
        some (acc ++ top.map Node.made) ∧
      List.Forall₂ Node.IsParent top groups ∧
      (∀ n ∈ top, n.body.expiry = expiry) ∧
      ∀ n ∈ top, n.body.deps =
        if acc = [] ∧ groups.length = 1 then rootDeps else .objectIdList [] := by
  induction groups generalizing acc with
  | nil => exact ⟨[], by simp [makeParents], .nil, by simp, by simp⟩
  | cons group groups ih =>
    -- the parent of the first group
    let deps := if acc.isEmpty && (groups.map (List.map Node.made)).isEmpty then rootDeps
      else .objectIdList []
    let parent := makeNode hP convKey (.internalNode (group.map Node.key)) (group.map Node.id)
      deps expiry
    obtain ⟨top, hrun, hparents, hexp, hdeps⟩ := ih (acc ++ [parent.made])
    refine ⟨parent :: top, ?_, .cons ⟨rfl, rfl⟩ hparents, ?_, ?_⟩
    · have hids : (group.map Node.made).map (Block.id P) = group.map Node.id := by
        rw [List.map_map]
        rfl
      simp only [List.map_cons, makeParents, mapM_key_made, hids, Option.bind_eq_bind,
        Option.bind_some]
      rw [makeBlock_eq_made hP, hrun, List.append_assoc]
      rfl
    · intro n hn
      rcases List.mem_cons.mp hn with rfl | hn
      · rfl
      · exact hexp n hn
    · intro n hn
      rcases List.mem_cons.mp hn with rfl | htop
      · show deps = _
        simp [deps]
      · -- a later parent: there are at least two groups
        have hgroups : groups ≠ [] := by
          rintro rfl
          cases hparents
          cases htop
        rw [hdeps n htop, if_neg (by simp), if_neg]
        rintro ⟨-, hlen⟩
        exact hgroups (List.length_eq_zero_iff.mp (by simpa using hlen))

/-- `makeTree` puts parents on a tower until there is one root, which carries `rootDeps`. -/
theorem makeTree_tower (hP : P.SerdeLaws) (convKey : Vector UInt8 32) (rootDeps : ObjectDeps)
    (expiry : Option Timestamp) {arity : Nat} (harity : 2 ≤ arity) {leaves : List (Node P)} :
    ∀ (fuel : Nat) (below top : List (Node P)), Tower P leaves below top → top.length < fuel →
      ∃ (parents : List (Node P)) (root : Node P),
        makeTree P convKey rootDeps expiry arity fuel (top.map Node.made) =
          some ((parents ++ [root]).map Node.made) ∧
        Tower P leaves (below ++ top ++ parents) [root] ∧
        (∀ n ∈ parents ++ [root], n.body.expiry = expiry) ∧ root.body.deps = rootDeps ∧
        ∀ n ∈ parents, n.body.deps = .objectIdList [] := by
  intro fuel
  induction fuel with
  | zero =>
    intro below top _ hfuel
    omega
  | succ fuel ih =>
    intro below top hT hfuel
    have hpos : 0 < arity := by omega
    have htop : 0 < top.length := List.length_pos_iff.mpr hT.top_ne_nil
    obtain ⟨parents, hrun, hparents, hexp, hdeps⟩ :=
      makeParents_spec hP convKey rootDeps expiry (chunks arity top) []
    have hlen : parents.length = (chunks arity top).length := hparents.length_eq
    have hne : parents ≠ [] := by
      intro h
      have := chunks_ne_nil hpos hT.top_ne_nil
      rw [h] at hlen
      exact this (List.length_eq_zero_iff.mp hlen.symm)
    have hT' : Tower P leaves (below ++ top) parents :=
      .parents hT hne hparents (chunks_flatten hpos top)
    rw [List.nil_append, ← chunks_map] at hrun
    simp only [makeTree, hrun, Option.bind_eq_bind, Option.bind_some, List.length_map]
    by_cases hone : 1 < parents.length
    · -- more than one parent: another level
      have hlt : parents.length < fuel := by
        have : 2 ≤ top.length := by
          by_contra hle
          have h1 : top.length = 1 := by omega
          have h2 := chunks_length hpos top
          have h3 : (top.length + arity - 1) / arity = 1 := by
            rw [h1, Nat.add_sub_cancel_left]
            exact Nat.div_self hpos
          omega
        have := chunks_length_lt harity this
        omega
      obtain ⟨great, root, hgrun, hgT, hgexp, hgroot, hgdeps⟩ := ih (below ++ top) parents hT' hlt
      refine ⟨parents ++ great, root, ?_, ?_, ?_, hgroot, ?_⟩
      · simp [hone, hgrun]
      · rw [← List.append_assoc]
        exact hgT
      · intro n hn
        rw [List.append_assoc] at hn
        rcases List.mem_append.mp hn with hn | hn
        · exact hexp n hn
        · exact hgexp n hn
      · intro n hn
        rcases List.mem_append.mp hn with hn | hn
        · rw [hdeps n hn, if_neg]
          omega
        · exact hgdeps n hn
    · -- one parent: the root
      have h1 : parents.length = 1 := by
        have := List.length_pos_iff.mpr hne
        omega
      obtain ⟨root, rfl⟩ := List.length_eq_one_iff.mp h1
      refine ⟨[], root, by simp, ?_, by simpa using hexp, ?_, by simp⟩
      · rw [List.append_nil]
        exact hT'
      · rw [hdeps root (List.mem_singleton_self root), if_pos ⟨rfl, by omega⟩]

/-! ## The object created by `new` -/

/-- The object `o` is a tower under the node `root`, whose leaves hold the bytes `data`. The root
alone carries dependencies. -/
structure Built (o : Object) (data : Bytes) (rootDeps : ObjectDeps) (expiry : Option Timestamp)
    (below : List (Node P)) (root : Node P) : Prop where
  blocks_eq : o.blocks = (below ++ [root]).map Node.made
  tower : ∃ leaves, Tower P leaves below [root] ∧ leaves.flatMap Node.chunk = data
  expiry_eq : ∀ n ∈ below ++ [root], n.body.expiry = expiry
  root_deps : root.body.deps = rootDeps
  below_deps : ∀ n ∈ below, n.body.deps = .objectIdList []

section Built

variable {o : Object} {data : Bytes} {rootDeps : ObjectDeps} {expiry : Option Timestamp}
  {below : List (Node P)} {root : Node P}

theorem Built.id_eq (h : o.Built data rootDeps expiry below root) : o.id P = some root.id := by
  simp [Object.id, Object.root, h.blocks_eq]

theorem Built.key_eq (h : o.Built data rootDeps expiry below root) :
    o.key = some (some root.key) := by
  simp [Object.key, Object.root, h.blocks_eq]

/-- The blocks of a created object are those made of its nodes. -/
theorem Built.mem_blocks (h : o.Built data rootDeps expiry below root) {b : Block} :
    b ∈ o.blocks ↔ ∃ n ∈ below ++ [root], n.made = b := by
  rw [h.blocks_eq, List.mem_map]

theorem Built.valid (h : o.Built data rootDeps expiry below root) {b : Block}
    (hb : b ∈ o.blocks) : b.Valid P := by
  obtain ⟨n, -, rfl⟩ := h.mem_blocks.mp hb
  exact n.made_valid

end Built

theorem arity_ge {validBlockSize : Nat} (h : MIN_SIZE ≤ validBlockSize) :
    2 ≤ arity validBlockSize := by
  simp only [MIN_SIZE] at h
  simp only [arity, EMPTY_BLOCK_SIZE, BIG_VARINT_EXTRA, MAX_DEPS_SIZE, BLOCK_ID_SIZE,
    BLOCK_KEY_SIZE]
  omega

/-- The leaves that `new` makes hold the chunks. -/
theorem flatMap_chunk_makeNode (hP : P.SerdeLaws) (convKey : Vector UInt8 32) (deps : ObjectDeps)
    (expiry : Option Timestamp) (pieces : List Bytes) :
    (pieces.map fun c => makeNode hP convKey (.dataChunk c) [] deps expiry).flatMap Node.chunk =
      pieces.flatten := by
  induction pieces with
  | nil => rfl
  | cons c pieces ih =>
    rw [List.map_cons, List.flatMap_cons, ih, List.flatten_cons]
    rfl

/-- A content that fits in the root is an object of one block. -/
theorem newWithDeps_single {content : ObjectContent} {deps : List ObjectId} {validBlockSize : Nat}
    (h : EMPTY_BLOCK_SIZE + DATA_VARINT_EXTRA + BLOCK_ID_SIZE * deps.length +
      (P.objectContent.toVec content).length ≤ validBlockSize) (objDeps : ObjectDeps)
    (expiry : Option Timestamp) (repoPubkey : PubKey) (repoSecret : SymKey) :
    newWithDeps P content deps objDeps expiry validBlockSize repoPubkey repoSecret =
      some ⟨[makeDataBlock P (convergenceKey P repoPubkey repoSecret) objDeps expiry
        (P.objectContent.toVec content)], deps⟩ := if_pos h

/-- The content fits in one block together with the dependencies. -/
def FitsInRoot (P : Primitives) (content : ObjectContent) (deps : List ObjectId)
    (validBlockSize : Nat) : Prop :=
  EMPTY_BLOCK_SIZE + DATA_VARINT_EXTRA + BLOCK_ID_SIZE * deps.length +
    (P.objectContent.toVec content).length ≤ validBlockSize

/-- The leaves of a content that is cut into chunks. -/
def leafNodes (hP : P.SerdeLaws) (convKey : Vector UInt8 32) (expiry : Option Timestamp)
    (validBlockSize : Nat) (content : ObjectContent) : List (Node P) :=
  (chunks (validBlockSize - EMPTY_BLOCK_SIZE - DATA_VARINT_EXTRA)
    (P.objectContent.toVec content)).map
    fun chunk => makeNode hP convKey (.dataChunk chunk) [] (.objectIdList []) expiry

/-- A content that does not fit in the root is cut into leaves under a tree. -/
theorem newWithDeps_chunks (hP : P.SerdeLaws) {content : ObjectContent} {deps : List ObjectId}
    (objDeps : ObjectDeps) (expiry : Option Timestamp) {validBlockSize : Nat}
    (hsize : MIN_SIZE ≤ validBlockSize) (hbig : ¬ FitsInRoot P content deps validBlockSize)
    (repoPubkey : PubKey) (repoSecret : SymKey) :
    let convKey := convergenceKey P repoPubkey repoSecret
    let leaves := leafNodes hP convKey expiry validBlockSize content
    ∃ (parents : List (Node P)) (root : Node P),
      makeTree P convKey objDeps expiry (arity validBlockSize) (leaves.length + 1)
      (leaves.map Node.made) =
        some ((parents ++ [root]).map Node.made) ∧
      newWithDeps P content deps objDeps expiry validBlockSize repoPubkey repoSecret =
        some ⟨(leaves ++ parents ++ [root]).map Node.made, deps⟩ ∧
      Tower P leaves (leaves ++ parents) [root] ∧
      (∀ n ∈ parents ++ [root], n.body.expiry = expiry) ∧
      root.body.deps = objDeps ∧ ∀ n ∈ parents, n.body.deps = .objectIdList [] := by
  intro convKey leaves
  simp only [MIN_SIZE] at hsize
  have hpos : 0 < validBlockSize - EMPTY_BLOCK_SIZE - DATA_VARINT_EXTRA := by
    simp only [EMPTY_BLOCK_SIZE, DATA_VARINT_EXTRA]
    omega
  have hleaves : leaves.map Node.made =
      (chunks (validBlockSize - EMPTY_BLOCK_SIZE - DATA_VARINT_EXTRA)
        (P.objectContent.toVec content)).map
        (makeDataBlock P convKey (.objectIdList []) expiry) := by
    simp only [leaves, leafNodes, List.map_map]
    rfl
  have hT : Tower P leaves [] leaves := by
    refine .leaves ?_ ?_
    · simpa [leaves, leafNodes] using chunks_ne_nil hpos (hP.objectContent_ne_nil content)
    · intro n hn
      obtain ⟨c, -, rfl⟩ := List.mem_map.mp hn
      exact ⟨⟨c, rfl⟩, rfl⟩
  obtain ⟨parents, root, hrun, hT', hexp, hroot, hdeps⟩ :=
    makeTree_tower hP convKey objDeps expiry (arity_ge (by simpa [MIN_SIZE] using hsize))
      (leaves.length + 1) [] leaves hT (Nat.lt_succ_self _)
  refine ⟨parents, root, hrun, ?_, hT', hexp, hroot, hdeps⟩
  unfold FitsInRoot at hbig
  simp only [newWithDeps, if_neg hbig]
  simp only [convKey] at hrun hleaves
  simp only [← hleaves, List.length_map, hrun, Option.bind_eq_bind,
    Option.bind_some, List.map_append,
    List.append_assoc]
  rfl

/-- What `new` builds from a content once the dependencies of the root are known. -/
theorem newWithDeps_spec (hP : P.SerdeLaws) (content : ObjectContent) (deps : List ObjectId)
    (objDeps : ObjectDeps) (expiry : Option Timestamp) {validBlockSize : Nat}
    (hsize : MIN_SIZE ≤ validBlockSize) (repoPubkey : PubKey) (repoSecret : SymKey) :
    ∃ (o : Object) (below : List (Node P)) (root : Node P),
      newWithDeps P content deps objDeps expiry validBlockSize repoPubkey repoSecret = some o ∧
      o.Built (P.objectContent.toVec content) objDeps expiry below root ∧
      (below = [] ↔ FitsInRoot P content deps validBlockSize) ∧ o.deps = deps := by
  simp only [MIN_SIZE] at hsize
  let convKey := convergenceKey P repoPubkey repoSecret
  simp only [newWithDeps]
  split
  · -- a single block
    rename_i hfits
    let root := makeNode hP convKey (.dataChunk (P.objectContent.toVec content)) [] objDeps expiry
    have hleaf : root.IsLeaf := ⟨⟨_, rfl⟩, rfl⟩
    refine ⟨_, [], root, rfl, ⟨rfl, ⟨[root], ?_, ?_⟩, ?_, rfl, by simp⟩, ?_, rfl⟩
    · exact .leaves (List.cons_ne_nil _ _) (by simpa using hleaf)
    · simp [Node.chunk, root, makeNode]
    · intro n hn
      rw [List.nil_append, List.mem_singleton] at hn
      rw [hn]
      rfl
    · exact ⟨fun _ => hfits, fun _ => rfl⟩
  · rename_i hfits
    obtain ⟨parents, root, -, hnew, hT, hexp, hroot, hdeps⟩ :=
      newWithDeps_chunks hP objDeps expiry (by simpa [MIN_SIZE] using hsize)
      hfits repoPubkey repoSecret
    rw [newWithDeps, if_neg hfits] at hnew
    refine ⟨_, _, root, hnew, ⟨rfl, ⟨_, hT, ?_⟩, ?_, hroot, ?_⟩, ?_, rfl⟩
    · rw [leafNodes, flatMap_chunk_makeNode, chunks_flatten (by
        simp only [EMPTY_BLOCK_SIZE, DATA_VARINT_EXTRA]
        omega)]
    · intro n hn
      rw [List.append_assoc] at hn
      rcases List.mem_append.mp hn with hn | hn
      · obtain ⟨c, -, rfl⟩ := List.mem_map.mp hn
        rfl
      · exact hexp n hn
    · intro n hn
      rcases List.mem_append.mp hn with hn | hn
      · obtain ⟨c, -, rfl⟩ := List.mem_map.mp hn
        rfl
      · exact hdeps n hn
    · refine ⟨fun hnil => ?_, fun h => absurd h hfits⟩
      have hleaves := (List.append_eq_nil_iff.mp hnil).1
      rw [hleaves] at hT
      exact absurd (List.map_eq_nil_iff.mp hleaves) (chunks_ne_nil (by
        simp only [EMPTY_BLOCK_SIZE, DATA_VARINT_EXTRA]
        omega) (hP.objectContent_ne_nil content))

/-- `new` with at most 8 dependencies: one tower, with the dependencies in the root. -/
theorem new_spec (hP : P.SerdeLaws) (content : ObjectContent) {deps : List ObjectId}
    (hdeps : deps.length ≤ 8) (expiry : Option Timestamp) {blockSize : Nat}
    (hsize : blockSize + HEADER < 2 ^ 64) (repoPubkey : PubKey) (repoSecret : SymKey) :
    ∃ (o : Object) (below : List (Node P)) (root : Node P),
      new P content deps expiry blockSize repoPubkey repoSecret = some o ∧
      o.Built (P.objectContent.toVec content) (.objectIdList deps) expiry below root ∧
      o.deps = deps := by
  obtain ⟨valid, hvalid⟩ := storeValidValueSize_eq_some hsize
  have hmake : makeDeps P deps valid repoPubkey repoSecret = some (.objectIdList deps) :=
    if_pos hdeps
  simp only [new, hvalid, hmake, Option.bind_eq_bind, Option.bind_some]
  obtain ⟨o, below, root, hnew, hbuilt, -, hodeps⟩ :=
    newWithDeps_spec hP content deps (.objectIdList deps) expiry
      (storeValidValueSize_bounds hvalid).1 repoPubkey repoSecret
  exact ⟨o, below, root, hnew, hbuilt, hodeps⟩

/-- An object that `new` returns is built from the bytes of its content. -/
theorem built_of_new (hP : P.SerdeLaws) {content : ObjectContent} {deps : List ObjectId}
    {expiry : Option Timestamp} {blockSize : Nat} {repoPubkey : PubKey} {repoSecret : SymKey}
    {o : Object} (h : new P content deps expiry blockSize repoPubkey repoSecret = some o) :
    ∃ (valid : Nat) (objDeps : ObjectDeps) (below : List (Node P)) (root : Node P),
      storeValidValueSize blockSize = some valid ∧
      makeDeps P deps valid repoPubkey repoSecret = some objDeps ∧
      o.Built (P.objectContent.toVec content) objDeps expiry below root ∧
      (below = [] ↔ FitsInRoot P content deps valid) ∧ o.deps = deps := by
  unfold new at h
  obtain ⟨valid, hvalid, h⟩ := Option.bind_eq_some_iff.mp h
  obtain ⟨objDeps, hmake, h⟩ := Option.bind_eq_some_iff.mp h
  obtain ⟨o', below, root, hnew, hbuilt, hfits, hdeps⟩ := newWithDeps_spec hP content deps objDeps
    expiry (storeValidValueSize_bounds hvalid).1 repoPubkey repoSecret
  have ho : o' = o := Option.some.inj (hnew.symm.trans h)
  subst ho
  exact ⟨valid, objDeps, below, root, hvalid, hmake, hbuilt, hfits, hdeps⟩

theorem new_single (content : ObjectContent) (deps : List ObjectId)
    {blockSize validBlockSize : Nat}
    (hvalid : storeValidValueSize blockSize = some validBlockSize) (hdeps : deps.length ≤ 8)
    (h : EMPTY_BLOCK_SIZE + DATA_VARINT_EXTRA + BLOCK_ID_SIZE * deps.length +
      (P.objectContent.toVec content).length ≤ validBlockSize)
    (expiry : Option Timestamp) (repoPubkey : PubKey) (repoSecret : SymKey) :
    new P content deps expiry blockSize repoPubkey repoSecret =
      some ⟨[makeDataBlock P (convergenceKey P repoPubkey repoSecret) (.objectIdList deps) expiry
        (P.objectContent.toVec content)], deps⟩ := by
  have hmake : makeDeps P deps validBlockSize repoPubkey repoSecret =
      some (.objectIdList deps) := if_pos hdeps
  simp only [new, hvalid, hmake, Option.bind_eq_bind, Option.bind_some, newWithDeps_single h]

/-- The object with the list of dependencies that `new` refers to when they are more than 8. -/
def depListObject (P : Primitives) (deps : List ObjectId) (blockSize : Nat) (repoPubkey : PubKey)
    (repoSecret : SymKey) : Option Object := do
  let validBlockSize ← storeValidValueSize blockSize
  newDepList P deps validBlockSize repoPubkey repoSecret

theorem depListObject_spec (hP : P.SerdeLaws) (deps : List ObjectId) {blockSize : Nat}
    (hsize : blockSize + HEADER < 2 ^ 64) (repoPubkey : PubKey) (repoSecret : SymKey) :
    ∃ (depObj : Object) (depBelow : List (Node P)) (depRoot : Node P),
      depListObject P deps blockSize repoPubkey repoSecret = some depObj ∧
      depObj.Built (P.objectContent.toVec (.depList deps)) (.objectIdList []) none depBelow
        depRoot := by
  obtain ⟨valid, hvalid⟩ := storeValidValueSize_eq_some hsize
  have hsize' : valid + HEADER < 2 ^ 64 := by
    have := (storeValidValueSize_bounds hvalid).2
    simp only [storeMaxValueSize, MAX_FACTOR, PAGE_SIZE, HEADER, MIN_SIZE] at this ⊢
    omega
  obtain ⟨depObj, depBelow, depRoot, hnew, hbuilt, -⟩ :=
    new_spec hP (.depList deps) (show ([] : List ObjectId).length ≤ 8 from Nat.zero_le 8) none
      hsize' repoPubkey repoSecret
  refine ⟨depObj, depBelow, depRoot, ?_, hbuilt⟩
  rw [← newDepList_eq] at hnew
  simp only [depListObject, hvalid, Option.bind_eq_bind, Option.bind_some, hnew]

/-- `new` with more than 8 dependencies: the root refers to the tree of another object. -/
theorem new_spec_long (hP : P.SerdeLaws) (content : ObjectContent) {deps : List ObjectId}
    (hdeps : 8 < deps.length) (expiry : Option Timestamp) {blockSize : Nat}
    (hsize : blockSize + HEADER < 2 ^ 64) (repoPubkey : PubKey)
    (repoSecret : SymKey) {depObj : Object}
    (hdepObj : depListObject P deps blockSize repoPubkey repoSecret = some depObj)
    {data : Bytes} {depBelow : List (Node P)} {depRoot : Node P}
    (hdep : depObj.Built data (.objectIdList []) none depBelow depRoot) :
    ∃ (o : Object) (below : List (Node P)) (root : Node P),
      new P content deps expiry blockSize repoPubkey repoSecret = some o ∧
      o.Built (P.objectContent.toVec content) (.depListRef ⟨depRoot.id, depRoot.key⟩) expiry below
        root := by
  obtain ⟨valid, hvalid⟩ := storeValidValueSize_eq_some hsize
  simp only [depListObject, hvalid, Option.bind_eq_bind, Option.bind_some] at hdepObj
  have hmake : makeDeps P deps valid repoPubkey repoSecret =
      some (.depListRef ⟨depRoot.id, depRoot.key⟩) := by
    simp only [makeDeps, Nat.not_le.mpr hdeps, if_false, hdepObj, Option.bind_eq_bind,
      Option.bind_some, hdep.id_eq, hdep.key_eq]
    rfl
  obtain ⟨o, below, root, hnew, hbuilt, -⟩ :=
    newWithDeps_spec hP content deps (.depListRef ⟨depRoot.id, depRoot.key⟩) expiry
      (storeValidValueSize_bounds hvalid).1 repoPubkey repoSecret
  refine ⟨o, below, root, ?_, hbuilt⟩
  simp only [new, hvalid, hmake, Option.bind_eq_bind, Option.bind_some, hnew]

end Object

end Lofire
