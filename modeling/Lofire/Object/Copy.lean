import Lofire.Object.SelfContained

/-!
# Copies of an object

A well-formed object is the list of the levels of a tree, with the dependencies in the root alone.
`new` makes such objects. `copy` keeps the leaves, changes their expiry and always builds a new root
over them, also where the only leaf was the root before. The dependencies of that leaf then stay
inside the tree, so a copy is well formed exactly if there are none, or the content did not fit in
the root (`copies_wellFormed_iff`).
-/

namespace Lofire

open Lib

/-! ## Well-formed objects -/

/-- The blocks `below` and `top` are the levels of a tree from the leaves up: the leaves have no
children, and the child lists of a level, joined, are the ids of the level before it. -/
inductive Levels (P : Primitives) : List Block → List Block → Prop
  | leaves {top : List Block} (h : ∀ b ∈ top, b.children = []) : Levels P [] top
  | parents {below mid top : List Block} (hl : Levels P below mid)
      (h : top.flatMap (fun b => b.children) = mid.map (Block.id P)) : Levels P (below ++ mid) top

/-- The representation of an object: levels under one root, one expiry, dependencies in the root. -/
structure Object.WellFormed (P : Primitives) (o : Object) : Prop where
  levels : ∃ below root, o.blocks = below ++ [root] ∧ Levels P below [root]
  expiry_eq : ∀ b ∈ o.blocks, o.expiry = some b.expiry
  deps_eq : ∀ b ∈ o.blocks.dropLast, b.deps = .objectIdList []

/-! ## Towers -/

namespace Tower

variable {P : Primitives} {leaves below top : List (Node P)}

theorem isLeaf (h : Tower P leaves below top) : ∀ n ∈ leaves, n.IsLeaf := by
  induction h with
  | leaves _ hleaf => exact hleaf
  | parents _ _ _ _ ih => exact ih

theorem leaves_ne_nil (h : Tower P leaves below top) : leaves ≠ [] := by
  induction h with
  | leaves hne _ => exact hne
  | parents _ _ _ _ ih => exact ih

/-- The leaves are the top level, or they are all below it. -/
theorem leaves_cases (h : Tower P leaves below top) :
    (below = [] ∧ top = leaves) ∨ (below ≠ [] ∧ ∀ n ∈ leaves, n ∈ below) := by
  induction h with
  | leaves => exact .inl ⟨rfl, rfl⟩
  | @parents below mid top groups ht _ _ _ ih =>
    right
    refine ⟨fun h => ht.top_ne_nil (List.append_eq_nil_iff.mp h).2, fun n hn => ?_⟩
    rcases ih with ⟨-, hmid⟩ | ⟨-, hmem⟩
    · rw [hmid]
      exact List.mem_append_right _ hn
    · exact List.mem_append_left _ (hmem n hn)

/-- Blocks that show a tower are the levels of a tree. -/
theorem levels (h : Tower P leaves below top) {lows tops : List Block}
    (hlows : List.Forall₂ Node.Shows below lows) (htops : List.Forall₂ Node.Shows top tops) :
    Levels P lows tops := by
  induction h generalizing lows tops with
  | leaves _ hleaf =>
    cases hlows
    refine .leaves fun b hb => ?_
    obtain ⟨n, hn, hshows⟩ := forall₂_mem_right htops hb
    rw [hshows.body_eq, (hleaf n hn).2]
  | @parents below mid top groups _ _ hgroups hmid ih =>
    obtain ⟨lows, mids, hlow, hmids, rfl⟩ := forall₂_append_left hlows
    refine .parents (ih hlow hmids) ?_
    rw [Node.children_flatMap htops hgroups, hmid, Node.map_id_of_shows hmids]

end Tower

/-- The node with another expiry. -/
def Node.withExpiry {P : Primitives} (n : Node P) (expiry : Option Timestamp) : Node P where
  body := { n.body with expiry }
  key := n.key
  content := n.content
  decrypts := n.decrypts

namespace Object

variable {P : Primitives}

/-! ## Levels over other blocks -/

theorem ShowsKey.setExpiry {n : Node P} {b : Block} (h : ShowsKey n b)
    (expiry : Option Timestamp) : ShowsKey (n.withExpiry expiry) (b.setExpiry expiry) where
  body_eq := by
    have hbody := congrArg (fun body : BlockBody => { body with expiry }) h.body_eq
    exact hbody
  valid := Block.setExpiry_valid b expiry
  key_eq := h.key_eq

theorem showsKey_made (n : Node P) : ShowsKey n n.made := ⟨n.shows_made, rfl⟩

/-- What a parent takes from a block. -/
def keyAndId (P : Primitives) (b : Block) : Option SymKey × BlockId := (b.key, b.id P)

theorem map_keyAndId {nodes : List (Node P)} {bs : List Block}
    (h : List.Forall₂ ShowsKey nodes bs) :
    bs.map (keyAndId P) = (nodes.map Node.made).map (keyAndId P) := by
  induction h with
  | nil => rfl
  | @cons n b nodes bs hb _ ih =>
    have hhead : keyAndId P b = keyAndId P n.made := by
      simp only [keyAndId, hb.key_eq, hb.id_eq, Node.made_key, Node.made_id]
    rw [List.map_cons, List.map_cons, List.map_cons, ih, hhead]

theorem mapM_key_congr {bs bs' : List Block} (h : bs.map (keyAndId P) = bs'.map (keyAndId P)) :
    bs.mapM Block.key = bs'.mapM Block.key := by
  have hmap : ∀ l : List Block, l.mapM Block.key = (l.map (keyAndId P)).mapM Prod.fst := by
    intro l
    rw [List.mapM_map]
    rfl
  rw [hmap, h, ← hmap]

theorem map_id_congr {bs bs' : List Block} (h : bs.map (keyAndId P) = bs'.map (keyAndId P)) :
    bs.map (Block.id P) = bs'.map (Block.id P) := by
  have hmap : ∀ l : List Block, l.map (Block.id P) = (l.map (keyAndId P)).map Prod.snd := by
    intro l
    rw [List.map_map]
    rfl
  rw [hmap, h, ← hmap]

theorem makeParents_congr (convKey : Vector UInt8 32) (rootDeps : ObjectDeps)
    (expiry : Option Timestamp) {groups groups' : List (List Block)}
    (h : groups.map (List.map (keyAndId P)) = groups'.map (List.map (keyAndId P)))
    (parents : List Block) :
    makeParents P convKey rootDeps expiry groups parents =
      makeParents P convKey rootDeps expiry groups' parents := by
  induction groups generalizing groups' parents with
  | nil =>
    have hnil : groups' = [] := List.map_eq_nil_iff.mp h.symm
    rw [hnil]
  | cons nodes rest ih =>
    cases groups' with
    | nil => cases h
    | cons nodes' rest' =>
      obtain ⟨hnodes, hrest⟩ := List.cons.inj h
      have hempty : rest.isEmpty = rest'.isEmpty := by
        have hnil := congrArg List.isEmpty hrest
        rwa [List.isEmpty_map, List.isEmpty_map] at hnil
      simp only [makeParents, mapM_key_congr hnodes, map_id_congr hnodes, hempty, ih hrest]

/-- The levels over some blocks depend on the keys and the ids of these blocks. -/
theorem makeTree_congr (convKey : Vector UInt8 32) (rootDeps : ObjectDeps)
    (expiry : Option Timestamp) (arity fuel : Nat) {bs bs' : List Block}
    (h : bs.map (keyAndId P) = bs'.map (keyAndId P)) :
    makeTree P convKey rootDeps expiry arity fuel bs =
      makeTree P convKey rootDeps expiry arity fuel bs' := by
  cases fuel with
  | zero => rfl
  | succ fuel =>
    have hchunks : (chunks arity bs).map (List.map (keyAndId P)) =
        (chunks arity bs').map (List.map (keyAndId P)) := by
      rw [← chunks_map, h, chunks_map]
    simp only [makeTree, makeParents_congr convKey rootDeps expiry hchunks]

/-! ## The leaves of an object -/

/-- The blocks of `o` show a tower under `root`, and the root carries its key. -/
structure Rooted (o : Object) (leaves below : List (Node P)) (root : Node P) : Prop where
  shows : List.Forall₂ Node.Shows (below ++ [root]) o.blocks
  key_eq : o.key = some (some root.key)
  tower : Tower P leaves below [root]

/-- What `copy` makes of an object: the leaves with the new expiry, and new levels over them. -/
structure CopyOf (o o' : Object) (convKey : Vector UInt8 32) (expiry : Option Timestamp)
    (leaves : List (Node P)) (root : Node P) (great : List (Node P)) (root' : Node P) : Prop where
  blocks : ∃ ls, List.Forall₂ ShowsKey (leaves.map (·.withExpiry expiry)) ls ∧
    o'.blocks = ls ++ (great ++ [root']).map Node.made
  deps_eq : o'.deps = o.deps
  tower : Tower P (leaves.map (·.withExpiry expiry))
    (leaves.map (·.withExpiry expiry) ++ great) [root']
  expiry_eq : ∀ n ∈ great ++ [root'], n.body.expiry = expiry
  root_deps : root'.body.deps = root.body.deps
  great_deps : ∀ n ∈ great, n.body.deps = .objectIdList []
  tree : ∃ leaf valid, leaves.head? = some leaf ∧
    storeValidValueSize leaf.body.content.length = some valid ∧
    makeTree P convKey root.body.deps expiry (arity valid) (leaves.length + 1)
      ((leaves.map (·.withExpiry expiry)).map Node.made) = some ((great ++ [root']).map Node.made)

namespace Rooted

variable {o : Object} {leaves below : List (Node P)} {root : Node P}

theorem exists_root (h : o.Rooted leaves below root) :
    ∃ lows b, o.blocks = lows ++ [b] ∧ List.Forall₂ Node.Shows below lows ∧ root.Shows b := by
  obtain ⟨lows, high, hlows, hhigh, hblocks⟩ := forall₂_append_left h.shows
  cases hhigh with
  | cons hb hnil =>
    cases hnil
    exact ⟨lows, _, hblocks, hlows, hb⟩

theorem id_eq (h : o.Rooted leaves below root) : o.id P = some root.id := by
  obtain ⟨lows, b, hblocks, -, hb⟩ := h.exists_root
  simp [Object.id, Object.root, hblocks, hb.id_eq]

/-- The leaves of the object carry their keys. -/
theorem leaves_eq (h : o.Rooted leaves below root) :
    ∃ ls, List.Forall₂ ShowsKey leaves ls ∧ o.leaves P = some (.ok ls) := by
  have hlen : o.blocks.length = below.length + 1 := by
    rw [← h.shows.length_eq, List.length_append, List.length_singleton]
  obtain ⟨ls, hls, hrun⟩ := collectLeaves_tower h.tower o.blocks [] o.blocks o.blocks.length
    ⟨some [], none⟩ h.shows (by simp) (by omega)
  have hrun' : collectLeaves P o.blocks o.blocks.length [(root.id, root.key)]
      (o.blocks.length - 1) ⟨some [], none⟩ = some (.ok ⟨some ls, none⟩) := by
    rw [hlen, Nat.add_sub_cancel, ← hlen]
    exact hrun
  refine ⟨ls, hls, ?_⟩
  simp only [Object.leaves, h.id_eq, h.key_eq, hrun', Option.bind_eq_bind, Option.bind_some]
  rfl

/-- A copy has the same leaves with the new expiry and always a new root over them. -/
theorem copy_eq (hP : P.SerdeLaws) (h : o.Rooted leaves below root)
    {expiry : Option Timestamp} {repoPubkey : PubKey} {repoSecret : SymKey}
    {r : Except ObjectCopyError Object} (hcopy : o.copy P expiry repoPubkey repoSecret = some r) :
    ∃ (o' : Object) (great : List (Node P)) (root' : Node P), r = .ok o' ∧
      o.CopyOf o' (convergenceKey P repoPubkey repoSecret) expiry leaves root great root' := by
  obtain ⟨lows, b, hblocks, -, hb⟩ := h.exists_root
  obtain ⟨ls, hls, hleaves⟩ := h.leaves_eq
  unfold copy at hcopy
  rw [hleaves] at hcopy
  simp only [Option.bind_eq_bind, Option.bind_some] at hcopy
  obtain ⟨block, hblock, hcopy⟩ := Option.bind_eq_some_iff.mp hcopy
  obtain ⟨valid, hvalid, hcopy⟩ := Option.bind_eq_some_iff.mp hcopy
  obtain ⟨b', hb', hcopy⟩ := Option.bind_eq_some_iff.mp hcopy
  obtain ⟨parents, htree, hr⟩ := Option.bind_eq_some_iff.mp hcopy
  have hroot : b'.deps = root.body.deps := by
    rw [Object.root, hblocks, List.getLast?_concat, Option.some.injEq] at hb'
    rw [← hb', hb.body_eq]
  have hleaf : ∃ leaf, leaves.head? = some leaf ∧ leaf.body.content.length =
      block.content.length := by
    cases hls with
    | nil => cases hblock
    | cons hleaf _ =>
      cases hblock
      exact ⟨_, rfl, by rw [hleaf.body_eq]⟩
  obtain ⟨leaf, hhead, hsize⟩ := hleaf
  -- the copies of the leaves show nodes with the new expiry
  let copies := leaves.map (·.withExpiry expiry)
  have hcopies : List.Forall₂ ShowsKey copies (ls.map fun block => block.setExpiry expiry) := by
    rw [List.forall₂_map_left_iff, List.forall₂_map_right_iff]
    exact hls.imp fun _ _ hh => hh.setExpiry expiry
  have hT : Tower P copies [] copies := by
    refine .leaves (by simpa [copies] using h.tower.leaves_ne_nil) ?_
    intro n hn
    obtain ⟨m, hm, rfl⟩ := List.mem_map.mp hn
    exact h.tower.isLeaf m hm
  obtain ⟨great, root', hrun, hT', hexp, hdeps, hgreat⟩ :=
    makeTree_tower hP (convergenceKey P repoPubkey repoSecret) root.body.deps expiry
      (arity_ge (storeValidValueSize_bounds hvalid).1) (copies.length + 1) [] copies hT
      (Nat.lt_succ_self _)
  rw [makeTree_congr _ _ _ _ _ (map_keyAndId hcopies), hroot, ← hcopies.length_eq, hrun,
    Option.some.injEq] at htree
  subst htree
  have hlength : copies.length = leaves.length := List.length_map ..
  rw [hlength] at hrun
  exact ⟨_, great, root', (Option.some.inj hr).symm, ⟨_, hcopies, rfl⟩, rfl,
    hT', hexp, hdeps, hgreat,
    leaf, valid, hhead, hsize ▸ hvalid, hrun⟩

end Rooted

/-! ## Objects with their dependencies in the leaves -/

/-- The blocks of `o` show a tower under `root`. The leaves carry `leafDeps` and the root
`rootDeps`. -/
structure Shaped (o : Object) (leafDeps rootDeps : ObjectDeps) (leaves below : List (Node P))
    (root : Node P) : Prop where
  shows : List.Forall₂ ShowsKey (below ++ [root]) o.blocks
  tower : Tower P leaves below [root]
  expiry_eq : ∀ n ∈ below ++ [root], n.body.expiry = root.body.expiry
  leaf_deps : ∀ n ∈ leaves, n.body.deps = leafDeps
  root_deps : root.body.deps = rootDeps
  below_deps : ∀ n ∈ below, n ∈ leaves ∨ n.body.deps = .objectIdList []

namespace Shaped

variable {o : Object} {leafDeps rootDeps : ObjectDeps} {leaves below : List (Node P)}
  {root : Node P}

theorem exists_root (h : o.Shaped leafDeps rootDeps leaves below root) :
    ∃ lows b, o.blocks = lows ++ [b] ∧ List.Forall₂ ShowsKey below lows ∧ ShowsKey root b := by
  obtain ⟨lows, high, hlows, hhigh, hblocks⟩ := forall₂_append_left h.shows
  cases hhigh with
  | cons hb hnil =>
    cases hnil
    exact ⟨lows, _, hblocks, hlows, hb⟩

/-- The object is well formed if its leaves carry no dependencies, and only then where the root is
above the leaves. -/
theorem wellFormed_iff (h : o.Shaped leafDeps rootDeps leaves below root) :
    o.WellFormed P ↔ below = [] ∨ leafDeps = .objectIdList [] := by
  obtain ⟨lows, b, hblocks, hlows, hb⟩ := h.exists_root
  have hdrop : o.blocks.dropLast = lows := by rw [hblocks, List.dropLast_concat]
  have hdeps : (∀ low ∈ lows, low.deps = .objectIdList []) ↔
      ∀ n ∈ below, n.body.deps = .objectIdList [] := by
    constructor
    · intro hlow n hn
      obtain ⟨low, hmem, hshows⟩ := forall₂_mem_left hlows hn
      rw [← hshows.body_eq]
      exact hlow low hmem
    · intro hbelow low hlow
      obtain ⟨n, hn, hshows⟩ := forall₂_mem_right hlows hlow
      rw [hshows.body_eq]
      exact hbelow n hn
  constructor
  · intro hwf
    rcases h.tower.leaves_cases with ⟨hbelow, -⟩ | ⟨-, hmem⟩
    · exact .inl hbelow
    · right
      obtain ⟨n, hn⟩ := List.exists_mem_of_ne_nil leaves h.tower.leaves_ne_nil
      have hnone := hdeps.mp (fun low hlow => hwf.deps_eq low (by rwa [hdrop])) n (hmem n hn)
      rw [← h.leaf_deps n hn, hnone]
  · intro hor
    refine ⟨⟨lows, b, hblocks, ?_⟩, ?_, ?_⟩
    · exact h.tower.levels (hlows.imp fun _ _ hh => hh.toShows) (.cons hb.toShows .nil)
    · intro low hlow
      obtain ⟨n, hn, hshows⟩ := forall₂_mem_right h.shows hlow
      rw [expiry, Object.root, hblocks, List.getLast?_concat, Option.map_some, hb.body_eq,
        hshows.body_eq, h.expiry_eq n hn]
    · rw [hdrop, hdeps]
      intro n hn
      rcases hor with hnil | hleaf
      · rw [hnil] at hn
        cases hn
      · rcases h.below_deps n hn with hmem | hnone
        · rw [h.leaf_deps n hmem, hleaf]
        · exact hnone

theorem rooted (h : o.Shaped leafDeps rootDeps leaves below root) : o.Rooted leaves below root := by
  obtain ⟨lows, b, hblocks, -, hb⟩ := h.exists_root
  refine ⟨h.shows.imp fun _ _ hh => hh.toShows, ?_, h.tower⟩
  simp [key, Object.root, hblocks, hb.key_eq]

/-- A copy has the same leaves with the new expiry and always a new root over them. -/
theorem copy_eq (hP : P.SerdeLaws) (h : o.Shaped leafDeps rootDeps leaves below root)
    {expiry : Option Timestamp} {repoPubkey : PubKey} {repoSecret : SymKey}
    {r : Except ObjectCopyError Object} (hcopy : o.copy P expiry repoPubkey repoSecret = some r) :
    ∃ (o' : Object) (below' : List (Node P)) (root' : Node P), r = .ok o' ∧
      o'.Shaped leafDeps rootDeps (leaves.map (·.withExpiry expiry)) below' root' ∧
      below' ≠ [] := by
  obtain ⟨o', great, root', hr, hcopyOf⟩ := h.rooted.copy_eq hP hcopy
  obtain ⟨ls, hls, hblocks⟩ := hcopyOf.blocks
  refine ⟨o', leaves.map (·.withExpiry expiry) ++ great, root', hr,
    ⟨?_, hcopyOf.tower, ?_, ?_, hcopyOf.root_deps.trans h.root_deps, ?_⟩, ?_⟩
  · rw [hblocks, List.append_assoc]
    refine List.rel_append hls ?_
    rw [List.forall₂_map_right_iff, List.forall₂_same]
    exact fun n _ => showsKey_made n
  · have hroot' : root'.body.expiry = expiry := hcopyOf.expiry_eq root' (by simp)
    intro n hn
    rw [hroot']
    rw [List.append_assoc] at hn
    rcases List.mem_append.mp hn with hn | hn
    · obtain ⟨m, -, rfl⟩ := List.mem_map.mp hn
      rfl
    · exact hcopyOf.expiry_eq n hn
  · intro n hn
    obtain ⟨m, hm, rfl⟩ := List.mem_map.mp hn
    exact h.leaf_deps m hm
  · intro n hn
    rcases List.mem_append.mp hn with hn | hn
    · exact .inl hn
    · exact .inr (hcopyOf.great_deps n hn)
  · intro hnil
    have hcopiesNil := (List.append_eq_nil_iff.mp hnil).1
    exact h.tower.leaves_ne_nil (by simpa using hcopiesNil)

end Shaped

/-- What `new` builds from the bytes of a content: the leaves carry dependencies if they fit in the
root. -/
theorem Built.shaped {o : Object} {data : Bytes} {rootDeps : ObjectDeps}
    {expiry : Option Timestamp} {below : List (Node P)} {root : Node P}
    (h : o.Built data rootDeps expiry below root) :
    ∃ leaves, o.Shaped (if below = [] then rootDeps else .objectIdList []) rootDeps leaves below
      root := by
  obtain ⟨leaves, hT, -⟩ := h.tower
  have hroot : root.body.expiry = expiry := h.expiry_eq root (by simp)
  refine ⟨leaves, ⟨?_, hT, ?_, ?_, h.root_deps, fun n hn => .inr (h.below_deps n hn)⟩⟩
  · rw [h.blocks_eq, List.forall₂_map_right_iff, List.forall₂_same]
    exact fun n _ => showsKey_made n
  · intro n hn
    rw [hroot, h.expiry_eq n hn]
  · intro n hn
    rcases hT.leaves_cases with ⟨hbelow, hleaves⟩ | ⟨hbelow, hmem⟩
    · rw [← hleaves, List.mem_singleton] at hn
      rw [if_pos hbelow, hn, h.root_deps]
    · rw [if_neg hbelow, h.below_deps n (hmem n hn)]

/-! ## Any number of copies -/

/-- The arguments of a call of `copy`. -/
structure CopyArgs where
  expiry : Option Timestamp
  repoPubkey : PubKey
  repoSecret : SymKey

/-- Each call copies the object that the call before it returned. -/
def copies (P : Primitives) (o : Object) :
    List CopyArgs → Option (Except ObjectCopyError Object)
  | [] => some (.ok o)
  | args :: calls =>
    match o.copy P args.expiry args.repoPubkey args.repoSecret with
    | some (.ok o') => copies P o' calls
    | r => r

theorem Shaped.copies_eq (hP : P.SerdeLaws) {o : Object} {leafDeps rootDeps : ObjectDeps}
    {leaves below : List (Node P)} {root : Node P}
    (h : o.Shaped leafDeps rootDeps leaves below root) {calls : List CopyArgs}
    {r : Except ObjectCopyError Object} (hcopies : copies P o calls = some r) :
    ∃ (o' : Object) (leaves' below' : List (Node P)) (root' : Node P), r = .ok o' ∧
      o'.Shaped leafDeps rootDeps leaves' below' root' ∧
      (below' = [] ↔ calls = [] ∧ below = []) := by
  induction calls generalizing o leaves below root with
  | nil =>
    rw [copies, Option.some.injEq] at hcopies
    exact ⟨o, leaves, below, root, hcopies.symm, h, by simp⟩
  | cons args calls ih =>
    rw [copies] at hcopies
    cases hcopy : o.copy P args.expiry args.repoPubkey args.repoSecret with
    | none =>
      rw [hcopy] at hcopies
      cases hcopies
    | some r₁ =>
      obtain ⟨o₁, below₁, root₁, hr₁, h₁, hne⟩ := h.copy_eq hP hcopy
      subst hr₁
      rw [hcopy] at hcopies
      obtain ⟨o', leaves', below', root', hr, h', hbelow⟩ := ih h₁ hcopies
      refine ⟨o', leaves', below', root', hr, h', ?_⟩
      rw [hbelow]
      simp [hne]

/-- The list of dependencies in the root is empty only if there are none. -/
theorem makeDeps_eq_nil_iff {deps : List ObjectId} {objectSize : Nat} {repoPubkey : PubKey}
    {repoSecret : SymKey} {objDeps : ObjectDeps}
    (h : makeDeps P deps objectSize repoPubkey repoSecret = some objDeps) :
    objDeps = .objectIdList [] ↔ deps = [] := by
  obtain ⟨-, rfl⟩ | ⟨hlong, r, rfl⟩ := makeDeps_cases h
  · rw [ObjectDeps.objectIdList.injEq]
  · constructor
    · intro hnil
      cases hnil
    · rintro rfl
      cases hlong

/-- A created object that is copied any number of times is well formed exactly if no copy was made,
it has no dependencies, or its content does not fit in the root. -/
theorem copies_wellFormed_iff (hP : P.SerdeLaws) {content : ObjectContent} {deps : List ObjectId}
    {expiry : Option Timestamp} {blockSize valid : Nat} {repoPubkey : PubKey} {repoSecret : SymKey}
    {o : Object} (hvalid : storeValidValueSize blockSize = some valid)
    (hnew : new P content deps expiry blockSize repoPubkey repoSecret = some o)
    {calls : List CopyArgs} {r : Except ObjectCopyError Object}
    (hcopies : copies P o calls = some r) :
    ∃ o', r = .ok o' ∧
      (o'.WellFormed P ↔ calls = [] ∨ deps = [] ∨ ¬ FitsInRoot P content deps valid) := by
  obtain ⟨valid', objDeps, below, root, hvalid', hmake, hbuilt, hfits, -⟩ := built_of_new hP hnew
  have hsize : valid' = valid := Option.some.inj (hvalid'.symm.trans hvalid)
  subst hsize
  obtain ⟨leaves, hshaped⟩ := hbuilt.shaped
  obtain ⟨o', leaves', below', root', hr, hshaped', hbelow⟩ := hshaped.copies_eq hP hcopies
  refine ⟨o', hr, ?_⟩
  rw [hshaped'.wellFormed_iff, hbelow, ← hfits, ← makeDeps_eq_nil_iff hmake]
  by_cases hroot : below = []
  · simp [hroot]
  · simp [hroot]

/-! ### A small file with one dependency -/

namespace OneDep

open NineDeps (primitives fileContent repoPubkey repoSecret)

def depIds : List ObjectId := [⟨.replicate 32 7⟩]

def object : Option Object := new primitives fileContent depIds none 4096 repoPubkey repoSecret

def calls : List CopyArgs := [⟨some 9, repoPubkey, repoSecret⟩]

/-- The dependencies of the blocks of the copy. -/
def copiedDeps : Option (Except ObjectCopyError (List ObjectDeps)) := do
  let r ← copies primitives (← object) calls
  return r.map fun o => o.blocks.map fun b => b.deps

/-- The leaf of the copy carries the dependencies too. -/
theorem copiedDeps_eq : copiedDeps = some (.ok [.objectIdList depIds, .objectIdList depIds]) := by
  decide +kernel

theorem copied : ∃ o o', object = some o ∧ copies primitives o calls = some (.ok o') ∧
    o'.blocks.map (fun b => b.deps) = [.objectIdList depIds, .objectIdList depIds] := by
  have h := copiedDeps_eq
  unfold copiedDeps at h
  obtain ⟨o, ho, h⟩ := Option.bind_eq_some_iff.mp h
  obtain ⟨r, hr, h⟩ := Option.bind_eq_some_iff.mp h
  cases r with
  | error e => cases h
  | ok o' =>
    have h := Except.ok.inj (Option.some.inj h)
    exact ⟨o, o', ho, hr, h⟩

end OneDep

open NineDeps (primitives) in
open OneDep in
/-- The copy of the file is not well formed. -/
theorem copies_wellFormed_iff_oneDep : ∃ o o', object = some o ∧
    copies primitives o calls = some (.ok o') ∧ ¬ o'.WellFormed primitives := by
  obtain ⟨o, o', ho, ho', -⟩ := copied
  have hvalid : storeValidValueSize 4096 = some 8168 := by decide
  obtain ⟨o'', hr, hiff⟩ :=
    copies_wellFormed_iff (P := primitives) Reference.serdeLaws hvalid ho ho'
  cases hr
  refine ⟨o, o', ho, ho', fun hwf => ?_⟩
  rcases hiff.mp hwf with hcalls | hdeps | hfits
  · cases hcalls
  · cases hdeps
  · refine hfits ?_
    unfold FitsInRoot
    decide

open NineDeps (primitives) in
open OneDep in
/-- A file of one block with a dependency: after one copy the old root is a leaf that carries the
dependency. -/
theorem not_copies_wellFormed :
    ¬ ∀ o, object = some o → ∀ o', copies primitives o calls = some (.ok o') →
      o'.WellFormed primitives := by
  intro h
  obtain ⟨o, o', ho, ho', hdeps⟩ := copied
  have hwf := h o ho o' ho'
  have hnone : ∀ d ∈ (o'.blocks.map fun b => b.deps).dropLast, d = .objectIdList [] := by
    intro d hd
    rw [← List.map_dropLast] at hd
    obtain ⟨b, hb, rfl⟩ := List.mem_map.mp hd
    exact hwf.deps_eq b hb
  rw [hdeps] at hnone
  cases hnone (.objectIdList depIds) (by simp)

end Object

end Lofire
