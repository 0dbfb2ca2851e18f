import Lofire.Object.Copy
import Lofire.Object.MissingBlocks

/-!
# The order of the loaded blocks

`load_tree` puts every block in front and collects the children of a level in reverse, so that the
loaded blocks are the levels of the tree, each in the order of the child lists of the level above
(`loadTree_levels`). The walk of `collect_leaves` counts on this order: it never meets a block with
another id than the one it looks for, whatever the shape of the tree (`collectLeaves_levels`).
-/

namespace Lofire

open Lib

namespace Object

variable {P : Primitives} {v : View}

/-! ## The loader -/

/-- No id of the level is missing if none is missing in the end. -/
theorem loadTree_missing {fuel : Nat} {parents missing : List BlockId} {blocks bs : List Block}
    (h : loadTree (m := Id) v fuel parents blocks missing = some (bs, [])) : missing = [] := by
  obtain ⟨hmissing, -⟩ := loadTree_mem h
  exact List.eq_nil_iff_forall_not_mem.mpr fun x hx =>
    List.not_mem_nil ((hmissing x).mpr (.inl hx))

/-- The blocks of the ids, in their order. -/
theorem filterMap_present (hids : ∀ x b, v x = .ok b → b.id P = x) {parents : List BlockId}
    (hpresent : parents.filter (fun p => (v p).toOption.isNone) = []) :
    (parents.filterMap fun p => (v p).toOption).map (Block.id P) = parents ∧
      (parents.filterMap fun p => (v p).toOption).flatMap (fun b => b.children) =
        parents.flatMap (childrenOf v) := by
  induction parents with
  | nil => exact ⟨rfl, rfl⟩
  | cons p parents ih =>
    cases hp : v p with
    | error e => simp [hp, Except.toOption] at hpresent
    | ok b =>
      have hrest : parents.filter (fun p => (v p).toOption.isNone) = [] := by
        simpa [hp, Except.toOption] using hpresent
      obtain ⟨hmap, hflat⟩ := ih hrest
      have hcons : (p :: parents).filterMap (fun p => (v p).toOption) =
          b :: parents.filterMap fun p => (v p).toOption := by
        simp [hp, Except.toOption]
      have hchildren : childrenOf v p = b.children := by simp [childrenOf, hp, Except.toOption]
      rw [hcons, List.map_cons, hmap, hids p b hp, List.flatMap_cons, hflat, List.flatMap_cons,
        hchildren]
      exact ⟨rfl, rfl⟩

/-- The blocks that are loaded below a level are the levels of a tree under it. -/
theorem loadTree_levels (hids : ∀ x b, v x = .ok b → b.id P = x) {fuel : Nat}
    {parents missing : List BlockId} {blocks bs : List Block}
    (h : loadTree (m := Id) v fuel parents blocks missing = some (bs, [])) :
    ∃ below top, bs = below ++ top ++ blocks ∧ top.map (Block.id P) = parents.reverse ∧
      Levels P below top := by
  induction fuel generalizing parents blocks missing with
  | zero => cases h
  | succ fuel ih =>
    rw [loadTree_succ, loadLevel_spec, List.nil_append] at h
    dsimp only at h
    -- the blocks of this level stand in reverse, and so do the ids of the next one
    have hlevel : parents.filter (fun p => (v p).toOption.isNone) = [] →
        ((parents.filterMap fun p => (v p).toOption).reverse).map (Block.id P) = parents.reverse ∧
        ((parents.filterMap fun p => (v p).toOption).reverse).flatMap (fun b => b.children) =
          (parents.flatMap fun p => (childrenOf v p).reverse).reverse := by
      intro hpresent
      obtain ⟨hmap, -⟩ := filterMap_present hids hpresent
      have hreverse : parents.reverse.filter (fun p => (v p).toOption.isNone) = [] := by
        rw [List.filter_reverse, hpresent, List.reverse_nil]
      obtain ⟨-, hflat⟩ := filterMap_present hids hreverse
      rw [List.filterMap_reverse] at hflat
      refine ⟨by rw [List.map_reverse, hmap], ?_⟩
      rw [hflat, List.reverse_flatMap]
      simp [Function.comp_def]
    split at h
    · rename_i hnil
      obtain ⟨hbs, hmissing⟩ := Prod.mk.inj (Option.some.inj h)
      obtain ⟨hmap, hflat⟩ := hlevel (List.append_eq_nil_iff.mp hmissing).2
      refine ⟨[], _, hbs.symm, hmap, .leaves ?_⟩
      rw [List.isEmpty_iff.mp hnil, List.reverse_nil] at hflat
      exact List.flatMap_eq_nil_iff.mp hflat
    · obtain ⟨hmap, hflat⟩ := hlevel (List.append_eq_nil_iff.mp (loadTree_missing h)).2
      obtain ⟨below, mid, hbs, hmid, hlevels⟩ := ih h
      refine ⟨below ++ mid, _, ?_, hmap, .parents hlevels (hflat.trans hmid.symm)⟩
      simp only [hbs, List.append_assoc]

/-! ## The decoder -/

/-- What a block decodes to under a key. -/
def decoded (P : Primitives) (key : SymKey) (b : Block) : Option BlockContentV0 :=
  P.blockContent.fromSlice (P.applyKeystream key.slice b.content)

/-- The block of the first reference passes a key down to the child of the second one. -/
def Passes (P : Primitives) (v : View) (ref child : ObjectId × SymKey) : Prop :=
  ∃ b keys, v ref.1 = .ok b ∧ decoded P ref.2 b = some (.internalNode keys) ∧
    child ∈ b.children.zip keys

/-- In the tree of the reference, data chunks have no children. -/
def ChunksAreLeaves (P : Primitives) (v : View) (ref : ObjectId × SymKey) : Prop :=
  ∀ r, Relation.ReflTransGen (Passes P v) ref r → ∀ b chunk, v r.1 = .ok b →
    decoded P r.2 b = some (.dataChunk chunk) → b.children = []

theorem ChunksAreLeaves.of_passes {ref child : ObjectId × SymKey} (h : ChunksAreLeaves P v ref)
    (hpass : Passes P v ref child) : ChunksAreLeaves P v child :=
  fun r hr => h r (.head hpass hr)

/-- The view has the block, possibly without its key. -/
def Shown (P : Primitives) (v : View) (b : Block) : Prop :=
  ∃ b', v (b.id P) = .ok b' ∧ b'.toBlockBody = b.toBlockBody

/-- The walk has not ended with an error about ids. -/
def IdsAgree {α : Type} (res : Except ObjectParseError α) : Prop :=
  res ≠ .error .invalidBlockId ∧ res ≠ .error .invalidChildren

/-- One step of the decoder at the block `b`: it ends with an error about the content, or goes on
with the keys or the data that the block decodes to. -/
theorem collectLevel_step (low top high : List Block) (b : Block) (key : SymKey)
    (refs children : List (ObjectId × SymKey)) (out : Collected) :
    (∃ e, collectLevel P (low ++ b :: top ++ high) ((b.id P, key) :: refs) low.length children out =
        some (.error e) ∧ e ≠ .invalidBlockId ∧ e ≠ .invalidChildren) ∨
      (∃ keys, decoded P key b = some (.internalNode keys) ∧ keys.length = b.children.length ∧
        collectLevel P (low ++ b :: top ++ high) ((b.id P, key) :: refs) low.length children out =
          collectLevel P (low ++ [b] ++ top ++ high) refs (low ++ [b]).length
            (children ++ b.children.zip keys) out) ∨
      ∃ chunk, decoded P key b = some (.dataChunk chunk) ∧
        collectLevel P (low ++ b :: top ++ high) ((b.id P, key) :: refs) low.length children out =
          collectLevel P (low ++ [b] ++ top ++ high) refs (low ++ [b]).length children
            (out.push (b.setKey (some key)) chunk) := by
  have hget : (low ++ b :: top ++ high)[low.length]? = some b := by
    rw [List.append_assoc, List.getElem?_append_right (Nat.le_refl _), Nat.sub_self]
    rfl
  have hsplit : low ++ b :: top ++ high = low ++ [b] ++ top ++ high := by
    simp only [List.append_assoc, List.cons_append, List.nil_append]
  rw [← hsplit, List.length_append, List.length_singleton]
  simp only [collectLevel, hget, ne_eq, not_true_eq_false, if_false]
  cases hcontent : decoded P key b with
  | none =>
    rw [decoded] at hcontent
    rw [hcontent]
    exact .inl ⟨_, rfl, by rintro ⟨⟩, by rintro ⟨⟩⟩
  | some content =>
    rw [decoded] at hcontent
    rw [hcontent]
    cases content with
    | internalNode keys =>
      dsimp only
      by_cases hkeys : keys.length = b.children.length
      · rw [if_neg (not_not.mpr hkeys)]
        exact .inr (.inl ⟨keys, rfl, hkeys, rfl⟩)
      · rw [if_pos hkeys]
        exact .inl ⟨_, rfl, by rintro ⟨⟩, by rintro ⟨⟩⟩
    | dataChunk chunk => exact .inr (.inr ⟨chunk, rfl, rfl⟩)

/-- A level is read in order: the references to its children are in the order of the child lists. -/
theorem collectLevel_level (low : List Block) {top : List Block} (high : List Block)
    {refs : List (ObjectId × SymKey)}
    (hrefs : refs.map Prod.fst = top.map (Block.id P)) (hshown : ∀ b ∈ top, Shown P v b)
    (hchunks : ∀ ref ∈ refs, ChunksAreLeaves P v ref) (children : List (ObjectId × SymKey))
    (out : Collected) :
    (∃ e, collectLevel P (low ++ top ++ high) refs low.length children out = some (.error e) ∧
      e ≠ .invalidBlockId ∧ e ≠ .invalidChildren) ∨
    ∃ next out', collectLevel P (low ++ top ++ high) refs low.length children out =
        some (.ok (children ++ next, out')) ∧
      next.map Prod.fst = top.flatMap (fun b => b.children) ∧
      ∀ child ∈ next, ChunksAreLeaves P v child := by
  induction top generalizing low refs children out with
  | nil =>
    obtain rfl := List.map_eq_nil_iff.mp hrefs
    refine .inr ⟨[], out, ?_, rfl, fun _ h => absurd h List.not_mem_nil⟩
    rw [List.append_nil children]
    rfl
  | cons b top ih =>
    cases refs with
    | nil => cases hrefs
    | cons ref refs =>
      obtain ⟨id, key⟩ := ref
      obtain ⟨hid, htail⟩ := List.cons.inj hrefs
      obtain rfl : id = b.id P := hid
      rw [List.forall_mem_cons] at hshown hchunks
      obtain ⟨⟨b', hview, hbody⟩, hshown⟩ := hshown
      obtain ⟨hchunk, hchunks⟩ := hchunks
      have hdecoded : decoded P key b' = decoded P key b := by
        have hcontent : b'.content = b.content := congrArg BlockBody.content hbody
        rw [decoded, hcontent, decoded]
      have hchildren : b'.children = b.children := congrArg BlockBody.children hbody
      obtain herror | ⟨keys, hcontent, hkeys, hstep⟩ | ⟨chunk, hcontent, hstep⟩ :=
        collectLevel_step low top high b key refs children out
      · exact .inl herror
      · have hpass : ∀ child ∈ b.children.zip keys, ChunksAreLeaves P v child := by
          intro child hchild
          refine hchunk.of_passes ⟨b', keys, hview, hdecoded.trans hcontent, ?_⟩
          rw [hchildren]
          exact hchild
        rw [hstep]
        refine (ih (low ++ [b]) htail hshown hchunks _ out).imp_right ?_
        rintro ⟨next, out', hrun, hnext, hnextChunks⟩
        refine ⟨b.children.zip keys ++ next, out', ?_, ?_, ?_⟩
        · rw [hrun, List.append_assoc]
        · rw [List.map_append, List.map_fst_zip hkeys.ge, hnext, List.flatMap_cons]
        · intro child hchild
          exact (List.mem_append.mp hchild).elim (hpass child) (hnextChunks child)
      · have hleaf : b.children = [] := by
          rw [← hchildren]
          exact hchunk _ .refl b' chunk hview (hdecoded.trans hcontent)
        rw [hstep]
        refine (ih (low ++ [b]) htail hshown hchunks children _).imp_right ?_
        rintro ⟨next, out', hrun, hnext, hnextChunks⟩
        exact ⟨next, out', hrun, by rw [hnext, List.flatMap_cons, hleaf, List.nil_append],
          hnextChunks⟩

/-- The walk over the levels of a tree does not meet a block with another id. -/
theorem collectLeaves_levels {low top : List Block} (hlevels : Levels P low top)
    (high : List Block) {refs : List (ObjectId × SymKey)}
    (hrefs : refs.map Prod.fst = top.map (Block.id P))
    (hshown : ∀ b ∈ low ++ top, Shown P v b) (hchunks : ∀ ref ∈ refs, ChunksAreLeaves P v ref)
    {fuel : Nat} (hfuel : low.length < fuel) (out : Collected) :
    ∃ res, collectLeaves P (low ++ top ++ high) fuel refs low.length out = some res ∧
      IdsAgree res := by
  induction hlevels generalizing high refs fuel out with
  | @leaves top hleaf =>
    obtain ⟨fuel, rfl⟩ : ∃ k, fuel = k + 1 := ⟨fuel - 1, by omega⟩
    have hnil : top.flatMap (fun b => b.children) = [] := List.flatMap_eq_nil_iff.mpr hleaf
    obtain ⟨e, hrun, hne⟩ | ⟨next, out', hrun, hnext, -⟩ :=
      collectLevel_level [] high hrefs hshown hchunks [] out
    · rw [collectLeaves, hrun]
      exact ⟨_, rfl, by simpa using hne.1, by simpa using hne.2⟩
    · rw [hnil, List.map_eq_nil_iff] at hnext
      subst hnext
      rw [collectLeaves, hrun]
      exact ⟨_, rfl, by rintro ⟨⟩, by rintro ⟨⟩⟩
  | @parents below mid top hl hchildren ih =>
    obtain ⟨fuel, rfl⟩ : ∃ k, fuel = k + 1 := ⟨fuel - 1, by omega⟩
    have htop : ∀ b ∈ top, Shown P v b := fun b hb => hshown b (List.mem_append_right _ hb)
    obtain ⟨e, hrun, hne⟩ | ⟨next, out', hrun, hnext, hnextChunks⟩ :=
      collectLevel_level (below ++ mid) high hrefs htop hchunks [] out
    · rw [collectLeaves, hrun]
      exact ⟨_, rfl, by simpa using hne.1, by simpa using hne.2⟩
    · rw [hchildren] at hnext
      rw [collectLeaves, hrun, List.nil_append]
      dsimp only
      -- the next level lies in front of this one, and has as many blocks as there are references
      have hlength : next.length = mid.length := by
        rw [← List.length_map (f := Prod.fst), hnext, List.length_map]
      split
      · exact ⟨_, rfl, by rintro ⟨⟩, by rintro ⟨⟩⟩
      · rename_i hne
        have hpos : 0 < next.length := List.length_pos_iff.mpr fun h => hne (by rw [h]; rfl)
        rw [if_neg (by rw [List.length_append]; omega)]
        have hindex : (below ++ mid).length - next.length = below.length := by
          rw [List.length_append]
          omega
        rw [hindex, List.append_assoc (below ++ mid)]
        exact ih (top ++ high) hnext (fun b hb => hshown b (List.mem_append_left _ hb)) hnextChunks
          (by rw [List.length_append] at hfuel; omega) out'

/-! ## Both -/

/-- `blocks`, or the same blocks with a key set on the root as `load` does. -/
def LoadedAs (blocks blocks' : List Block) : Prop :=
  blocks' = blocks ∨ ∃ key, blocks' = setRootKey blocks key

/-- The levels do not depend on the key of the root. -/
theorem levels_setKey {low : List Block} {root : Block} (h : Levels P low [root])
    (key : Option SymKey) : Levels P low [root.setKey key] := by
  cases h with
  | leaves hleaf => exact .leaves (by simpa using hleaf)
  | parents hl hchildren => exact .parents hl (by simpa using hchildren)

/-- The walk from the root over blocks that are loaded. -/
theorem collectLeaves_root_levels {low : List Block} {root : Block} (h : Levels P low [root])
    (hshown : ∀ b ∈ low ++ [root], Shown P v b) {key : SymKey}
    (hchunks : ChunksAreLeaves P v (root.id P, key)) (out : Collected) :
    ∃ res, collectLeaves P (low ++ [root]) (low ++ [root]).length [(root.id P, key)]
      ((low ++ [root]).length - 1) out = some res ∧ IdsAgree res := by
  have hrefs : [(root.id P, key)].map Prod.fst = [root].map (Block.id P) := rfl
  have hfuel : low.length < low.length + 1 := Nat.lt_succ_self _
  have hrun := collectLeaves_levels h [] hrefs hshown (List.forall_mem_singleton.mpr hchunks) hfuel
    out
  rw [List.append_nil] at hrun
  rw [List.length_append, List.length_singleton, Nat.add_sub_cancel]
  exact hrun

section Store

variable {σ : Type} {D : Set BlockBody} {S : RepoStore σ} (hS : S.Lawful P D) {s : σ}

include hS in
/-- The blocks that `load_tree` loads are the levels of the tree, and `collect_leaves` finds every
block where it looks for it. -/
theorem loaded_levels (hs : hS.Inv s) (hacyc : Acyclic (Child (hS.view s)))
    (hids : ∀ id b, hS.view s id = .ok b → b.id P = id) {id : BlockId}
    (hcomplete : absent (hS.view s) id = ∅) :
    ∃ below root, TreeLoadsFrom S s id (below ++ [root]) ∧ root.id P = id ∧
      Levels P below [root] ∧
      ∀ key blocks, LoadedAs (below ++ [root]) blocks →
        ChunksAreLeaves P (hS.view s) (id, key) → ∀ out,
          ∃ res, collectLeaves P blocks blocks.length [(id, key)] (blocks.length - 1) out =
            some res ∧ IdsAgree res := by
  obtain ⟨bs, ms, htree⟩ := loadTree_returns hacyc id
  obtain ⟨hmissing, hblocks⟩ := tree_mem htree
  have hnil : ms = [] := by
    rw [hcomplete] at hmissing
    exact List.eq_nil_iff_forall_not_mem.mpr (Set.eq_empty_iff_forall_notMem.mp hmissing)
  subst hnil
  obtain ⟨n, hn⟩ := htree
  obtain ⟨below, top, rfl, htop, hlevels⟩ := loadTree_levels hids (hn n (Nat.le_refl n))
  obtain ⟨root, rfl, rfl⟩ : ∃ root, top = [root] ∧ root.id P = id := by
    obtain ⟨root, rfl, hroot⟩ := List.map_eq_singleton_iff.mp htop
    exact ⟨root, rfl, hroot⟩
  rw [List.append_nil] at hn hblocks
  have hshown : ∀ b ∈ below ++ [root], Shown P (hS.view s) b := by
    intro b hb
    obtain ⟨x, -, hx⟩ := (hblocks b).mp hb
    exact ⟨b, by rw [hids x b hx, hx], rfl⟩
  refine ⟨below, root, treeLoadsFrom_of_view hS hs ⟨n, hn⟩, rfl, hlevels, ?_⟩
  rintro key blocks (rfl | ⟨rootKey, rfl⟩) hchunks out
  · exact collectLeaves_root_levels hlevels hshown hchunks out
  · have hset : setRootKey (below ++ [root]) rootKey = below ++ [root.setKey rootKey] :=
      List.modifyLast_concat ..
    rw [hset]
    refine collectLeaves_root_levels (levels_setKey hlevels rootKey) (fun b hb => ?_) hchunks out
    obtain hb | hb := List.mem_append.mp hb
    · exact hshown b (List.mem_append_left _ hb)
    · rw [List.mem_singleton.mp hb]
      exact hshown root (List.mem_append_right _ (List.mem_singleton_self _))

end Store

/-- A root with a leaf and an inner node above the same leaf. -/
def unevenTree : HashMapRepoStore where
  blocks id :=
    if id = ⟨.replicate 32 1⟩ then
      some ⟨⟨[⟨.replicate 32 3⟩, ⟨.replicate 32 2⟩], .objectIdList [], none, []⟩,
        some ⟨.replicate 32 1⟩, none⟩
    else if id = ⟨.replicate 32 2⟩ then
      some ⟨⟨[⟨.replicate 32 3⟩], .objectIdList [], none, []⟩, some ⟨.replicate 32 2⟩, none⟩
    else if id = ⟨.replicate 32 3⟩ then
      some ⟨⟨[], .objectIdList [], none, []⟩, some ⟨.replicate 32 3⟩, none⟩
    else none

/-- The leaf is loaded twice, for each of its two places. -/
theorem loaded_levels_unevenTree :
    let P := reference fun _ _ => false
    ∃ below root, TreeLoadsFrom (HashMapRepoStore.repoStore P 0) unevenTree ⟨.replicate 32 1⟩
        (below ++ [root]) ∧
      root.id P = ⟨.replicate 32 1⟩ ∧ Levels P below [root] ∧
      ∀ key blocks, LoadedAs (below ++ [root]) blocks →
        ChunksAreLeaves P unevenTree.view (⟨.replicate 32 1⟩, key) → ∀ out,
          ∃ res, collectLeaves P blocks blocks.length [(⟨.replicate 32 1⟩, key)]
            (blocks.length - 1) out = some res ∧ IdsAgree res := by
  intro P
  let hS := HashMapRepoStore.lawful P ∅ 0
  have hview : ∀ p b, unevenTree.view p = .ok b → b.id P = p ∧
      ((p = ⟨.replicate 32 1⟩ ∧ b.children = [⟨.replicate 32 3⟩, ⟨.replicate 32 2⟩]) ∨
        (p = ⟨.replicate 32 2⟩ ∧ b.children = [⟨.replicate 32 3⟩]) ∨
        (p = ⟨.replicate 32 3⟩ ∧ b.children = [])) := by
    intro p b h
    simp only [HashMapRepoStore.view, unevenTree] at h
    split_ifs at h with h1 h2 h3
    · cases h
      exact ⟨h1.symm, .inl ⟨h1, rfl⟩⟩
    · cases h
      exact ⟨h2.symm, .inr (.inl ⟨h2, rfl⟩)⟩
    · cases h
      exact ⟨h3.symm, .inr (.inr ⟨h3, rfl⟩)⟩
  have hchild : ∀ p c, Child unevenTree.view p c →
      (p = ⟨.replicate 32 1⟩ ∧ (c = ⟨.replicate 32 3⟩ ∨ c = ⟨.replicate 32 2⟩)) ∨
        (p = ⟨.replicate 32 2⟩ ∧ c = ⟨.replicate 32 3⟩) := by
    rintro p c ⟨b, hb, hc⟩
    obtain ⟨-, ⟨hp, hchildren⟩ | ⟨hp, hchildren⟩ | ⟨hp, hchildren⟩⟩ := hview p b hb
    · rw [hchildren] at hc
      exact .inl ⟨hp, by simpa using hc⟩
    · rw [hchildren] at hc
      exact .inr ⟨hp, by simpa using hc⟩
    · rw [hchildren] at hc
      cases hc
  have hacyc : Acyclic (Child unevenTree.view) := by
    refine acyclic_of_rank (fun x => if x = ⟨.replicate 32 1⟩ then 2
      else if x = ⟨.replicate 32 2⟩ then 1 else 0) fun p c hpc => ?_
    obtain ⟨rfl, rfl | rfl⟩ | ⟨rfl, rfl⟩ := hchild p c hpc
    · decide
    · decide
    · decide
  have hcomplete : absent unevenTree.view ⟨.replicate 32 1⟩ = ∅ := by
    refine Set.eq_empty_of_forall_notMem ?_
    rintro x ⟨hx, e, he⟩
    have hpresent : ∃ b, unevenTree.view x = .ok b := by
      obtain rfl | ⟨p, -, hpx⟩ := hx.cases_tail
      · exact ⟨_, rfl⟩
      · obtain ⟨-, rfl | rfl⟩ | ⟨-, rfl⟩ := hchild p x hpx
        · exact ⟨_, rfl⟩
        · exact ⟨_, rfl⟩
        · exact ⟨_, rfl⟩
    obtain ⟨b, hb⟩ := hpresent
    rw [hb] at he
    cases he
  exact loaded_levels hS trivial hacyc (fun p b hb => (hview p b hb).1) hcomplete

end Object

end Lofire
