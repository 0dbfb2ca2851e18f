import Lofire.Branch.Explore
import Lofire.Reference

/-!
# What a synchronisation sends

Of a graph of commits that the store holds completely, `sync_req` sends exactly the commits that are
ancestors of `our_heads` and not of `their_heads`, up to the filter, if they have dependencies
(`syncReq_exact`). A requester is complete afterwards exactly if it had every commit without
dependencies (`syncReq_complete_iff`).
-/

namespace Lofire

open Lib

namespace Branch

variable {P : Primitives} {v : Object.View}

/-- A finite graph of commits that a store holds completely. -/
structure CommitGraph (P : Primitives) (v : Object.View) where
  commits : Finset ObjectId
  deps : ObjectId → List ObjectId
  loads : ∀ c ∈ commits, ∃ o, Returns (Object.loadView P v c none) (.ok o) ∧
    o.id P = some c ∧ o.deps = deps c
  closed : ∀ c ∈ commits, ∀ d ∈ deps c, d ∈ commits

namespace CommitGraph

/-- `c` is one of `heads` or is reached from one through dependencies. -/
def Ancestor (G : CommitGraph P v) (heads : List ObjectId) (c : ObjectId) : Prop :=
  ∃ h ∈ heads, Relation.ReflTransGen (fun a b => b ∈ G.deps a) h c

/-- Where `load_branch` stops. -/
def stop (G : CommitGraph P v) (theirHeads : List ObjectId) (c : ObjectId) : Bool :=
  (G.deps c).isEmpty || decide (c ∈ theirHeads)

theorem stop_eq_false {G : CommitGraph P v} {theirHeads : List ObjectId} {c : ObjectId} :
    G.stop theirHeads c = false ↔ G.deps c ≠ [] ∧ c ∉ theirHeads := by
  simp [stop]

end CommitGraph

variable (G : CommitGraph P v)

/-- The store holds all the commits of the graph and their dependencies. -/
def CommitGraph.held (G : CommitGraph P v) : HeldCommits P v :=
  ⟨G.commits, G.deps, G.loads, fun c hc d hd => .inl (G.closed c hc d hd)⟩

theorem CommitGraph.succ_held {c : ObjectId} (hc : c ∈ G.commits) : G.held.succ c = G.deps c :=
  List.filter_eq_self.mpr fun d hd => decide_eq_true (G.closed c hc d hd)

/-- What a request selects from a complete graph. -/
theorem syncReq_spec (order : HashOrder ObjectId) {ourHeads theirHeads : List ObjectId}
    (hours : ∀ h ∈ ourHeads, h ∈ G.commits) (htheirs : ∀ h ∈ theirHeads, h ∈ G.commits)
    (theirFilter : BloomFilter) :
    ∃ ids, Returns (fun fuel => syncReq (m := Id) P order v fuel ourHeads theirHeads theirFilter)
        (.ok ids) ∧ ids.Nodup ∧
      ∀ c, c ∈ ids ↔ (∃ h ∈ ourHeads, Dfs.Reach G.deps (G.stop theirHeads) h c) ∧
        (¬ ∃ h ∈ theirHeads, Dfs.Reach G.deps (G.stop []) h c) ∧
          P.bloomContains theirFilter c.bytes = false := by
  obtain ⟨ids, hids, hnodup, hmem⟩ := G.held.syncReq_spec order hours htheirs theirFilter
  have hreach : ∀ {heads t : List ObjectId}, (∀ h ∈ heads, h ∈ G.commits) → ∀ c,
      (∃ h ∈ heads, Dfs.Reach G.held.succ (G.held.stop t) h c) ↔
        ∃ h ∈ heads, Dfs.Reach G.deps (G.stop t) h c := by
    intro heads t hheads c
    refine exists_congr fun h => and_congr_right fun hh => ?_
    exact Dfs.reach_congr (fun a ha => G.succ_held ha) G.closed (hheads h hh)
  refine ⟨ids, hids, hnodup, fun c => ?_⟩
  rw [hmem, hreach hours, hreach htheirs]

/-- A commit without dependencies is never sent. -/
theorem SyncsTo.deps_ne_nil {σ : Type} {D : Set BlockBody} {S : RepoStore σ} (hS : S.Lawful P D)
    {s : σ} (hs : hS.Inv s) (G : CommitGraph P (hS.view s)) {order : HashOrder ObjectId}
    {ourHeads theirHeads : List ObjectId} (hours : ∀ h ∈ ourHeads, h ∈ G.commits)
    (htheirs : ∀ h ∈ theirHeads, h ∈ G.commits) {theirFilter : BloomFilter} {ids : List ObjectId}
    (h : SyncsTo P S order s ourHeads theirHeads theirFilter ids) {c : ObjectId} (hc : c ∈ ids) :
    G.deps c ≠ [] := by
  obtain ⟨ids', hids', -, hmem⟩ := syncReq_spec G order hours htheirs theirFilter
  cases hids'.unique ((syncsTo_iff hS hs order).mp h)
  obtain ⟨⟨h, -, hreach⟩, -⟩ := (hmem c).mp hc
  exact (CommitGraph.stop_eq_false.mp hreach.stop_eq_false).1

/-! ## Commits of one block -/

/-- A commit of one block that is in the view loads. -/
theorem loadView_single {v : Object.View} {b : Block} {deps : List ObjectId}
    (hchildren : b.children = []) (hdeps : b.deps = .objectIdList deps)
    (hv : v (b.id P) = .ok b) :
    Returns (Object.loadView P v (b.id P) none) (.ok ⟨[b], deps⟩) := by
  refine ⟨1, fun fuel hfuel => ?_⟩
  obtain ⟨fuel, rfl⟩ : ∃ k, fuel = k + 1 := ⟨fuel - 1, by omega⟩
  have hlevel : Object.loadLevel (m := Id) v [b.id P] [] [] [] = ([], [b], []) := by
    simp only [Object.loadLevel, id_bind, hv, hchildren]
    rfl
  have hroot : Object.loadDeps P v ([] ++ [b]) fuel = some (.ok ⟨[] ++ [b], deps⟩) :=
    Object.loadDeps_idList hdeps fuel
  rw [Object.loadView_succ, Object.loadTree_succ, hlevel]
  exact hroot

/-- The commits of one block that a hash map holds, each under its id. -/
def singles (P : Primitives) (blocks : List Block) (deps : ObjectId → List ObjectId)
    (hdeps : ∀ b ∈ blocks, b.children = [] ∧ b.deps = .objectIdList (deps (b.id P)))
    (hclosed : ∀ b ∈ blocks, ∀ d ∈ deps (b.id P), ∃ b' ∈ blocks, b'.id P = d)
    {s : HashMapRepoStore} (hs : ∀ b ∈ blocks, s.blocks (b.id P) = some b) :
    CommitGraph P s.view where
  commits := (blocks.map (Block.id P)).toFinset
  deps := deps
  loads := by
    intro c hc
    obtain ⟨b, hb, rfl⟩ := List.mem_map.mp (List.mem_toFinset.mp hc)
    refine ⟨_, loadView_single (hdeps b hb).1 (hdeps b hb).2 ?_, rfl, rfl⟩
    rw [HashMapRepoStore.view, hs b hb]
  closed := by
    intro c hc d hd
    obtain ⟨b, hb, rfl⟩ := List.mem_map.mp (List.mem_toFinset.mp hc)
    obtain ⟨b', hb', rfl⟩ := hclosed b hb d hd
    exact List.mem_toFinset.mpr (List.mem_map_of_mem hb')

/-- The block of a small commit, as `Object::new` makes it. -/
def commitBlock (P : Primitives) (metadata : Bytes) (deps : List ObjectId) : Block :=
  let ref : ObjectRef := ⟨⟨.replicate 32 1⟩, ⟨.replicate 32 2⟩⟩
  let content : CommitContentV0 :=
    ⟨⟨.replicate 32 3⟩, 0, ref, deps.map fun id => ⟨id, ⟨.replicate 32 4⟩⟩, [], [], metadata, ref,
      none⟩
  Object.makeDataBlock P (Object.convergenceKey P ⟨.replicate 32 5⟩ ⟨.replicate 32 6⟩)
    (.objectIdList deps) none
    (P.objectContent.toVec (.commit ⟨none, none, content, ⟨.replicate 32 7, .replicate 32 8⟩⟩))

/-- A commit without dependencies, and a commit that depends on it. -/
def rootCommit (P : Primitives) : Block := commitBlock P [] []
def headCommit (P : Primitives) : Block := commitBlock P [1] [(rootCommit P).id P]

/-- The hash map that holds both. -/
def twoCommits (P : Primitives) : HashMapRepoStore :=
  ⟨fun id => if id = (rootCommit P).id P then some (rootCommit P)
    else if id = (headCommit P).id P then some (headCommit P) else none⟩

theorem rootCommit_ne {bloom : BloomFilter → Blake3Digest32 → Bool} :
    (rootCommit (reference bloom)).id (reference bloom) ≠
      (headCommit (reference bloom)).id (reference bloom) := by
  show (rootCommit (reference fun _ _ => false)).id (reference fun _ _ => false) ≠
    (headCommit (reference fun _ _ => false)).id (reference fun _ _ => false)
  decide +kernel

/-- The graph of the two commits. -/
def twoGraph (hne : (rootCommit P).id P ≠ (headCommit P).id P) :
    CommitGraph P (twoCommits P).view :=
  singles P [rootCommit P, headCommit P]
    (fun id => if id = (headCommit P).id P then [(rootCommit P).id P] else [])
    (by
      simp only [List.forall_mem_cons, if_neg hne, if_pos]
      exact ⟨⟨rfl, rfl⟩, ⟨rfl, rfl⟩, by simp⟩)
    (by simp)
    (by simp [twoCommits, hne.symm])

theorem mem_twoGraph (hne : (rootCommit P).id P ≠ (headCommit P).id P) {c : ObjectId} :
    c ∈ (twoGraph hne).commits ↔ c = (rootCommit P).id P ∨ c = (headCommit P).id P := by
  simp [twoGraph, singles]

/-! ## Completeness of the requester -/

/-- A path to a commit outside of a closed set is outside of it, and is explored. -/
theorem reach_of_not_mem {R : Set ObjectId} (hclosed : ∀ c ∈ R, ∀ d ∈ G.deps c, d ∈ R)
    {theirHeads : List ObjectId} (htheirs : ∀ h ∈ theirHeads, h ∈ R) {h c : ObjectId}
    (hpath : Relation.ReflTransGen (fun a b => b ∈ G.deps a) h c) (hc : c ∉ R)
    (hdeps : G.deps c ≠ []) : h ∉ R ∧ Dfs.Reach G.deps (G.stop theirHeads) h c := by
  induction hpath using Relation.ReflTransGen.head_induction_on with
  | refl =>
    refine ⟨hc, ?_, .refl⟩
    exact CommitGraph.stop_eq_false.mpr ⟨hdeps, fun hmem => hc (htheirs c hmem)⟩
  | @head a b hab _ ih =>
    obtain ⟨hb, hreach⟩ := ih
    have ha : a ∉ R := fun hmem => hb (hclosed a hmem b hab)
    refine ⟨ha, hreach.cons (CommitGraph.stop_eq_false.mpr ⟨List.ne_nil_of_mem hab, ?_⟩) hab⟩
    exact fun hmem => ha (htheirs a hmem)

theorem mem_of_reach {R : Set ObjectId} (hclosed : ∀ c ∈ R, ∀ d ∈ G.deps c, d ∈ R)
    {h c : ObjectId} (hpath : Relation.ReflTransGen (fun a b => b ∈ G.deps a) h c) (hh : h ∈ R) :
    c ∈ R := by
  induction hpath with
  | refl => exact hh
  | tail _ hstep ih => exact hclosed _ ih _ hstep

theorem ancestor_mem {heads : List ObjectId} (hheads : ∀ h ∈ heads, h ∈ G.commits) {c : ObjectId}
    (h : G.Ancestor heads c) : c ∈ G.commits := by
  obtain ⟨h, hh, hpath⟩ := h
  exact mem_of_reach G (R := ↑G.commits) G.closed hpath (hheads h hh)

/-- What a request sends, of the commits with dependencies: those of `ourHeads` that are not of
`theirHeads` and that the filter does not contain. -/
theorem syncReq_exact {σ : Type} {D : Set BlockBody} {S : RepoStore σ} (hS : S.Lawful P D) {s : σ}
    (hs : hS.Inv s) (order : HashOrder ObjectId) (G : CommitGraph P (hS.view s))
    {ourHeads theirHeads : List ObjectId} (hours : ∀ h ∈ ourHeads, h ∈ G.commits)
    (htheirs : ∀ h ∈ theirHeads, h ∈ G.commits) (theirFilter : BloomFilter) :
    ∃ ids, SyncsTo P S order s ourHeads theirHeads theirFilter ids ∧ ids.Nodup ∧
      ∀ c, G.deps c ≠ [] → (c ∈ ids ↔ G.Ancestor ourHeads c ∧ ¬ G.Ancestor theirHeads c ∧
        P.bloomContains theirFilter c.bytes = false) := by
  obtain ⟨ids, hids, hnodup, hmem⟩ := syncReq_spec G order hours htheirs theirFilter
  refine ⟨ids, (syncsTo_iff hS hs order).mpr hids, hnodup, fun c hdeps => ?_⟩
  -- a path to a commit with dependencies passes no commit without
  have hreach : (∃ h ∈ theirHeads, Dfs.Reach G.deps (G.stop []) h c) ↔ G.Ancestor theirHeads c := by
    constructor
    · rintro ⟨h, hh, hreach⟩
      exact ⟨h, hh, hreach.path⟩
    · rintro ⟨h, hh, hpath⟩
      exact ⟨h, hh, (reach_of_not_mem G (R := ∅) (by simp) (by simp) hpath
        (Set.notMem_empty c) hdeps).2⟩
  rw [hmem, hreach]
  constructor
  · rintro ⟨⟨h, hh, hours'⟩, hrest⟩
    exact ⟨⟨h, hh, hours'.path⟩, hrest⟩
  · rintro ⟨⟨h, hh, hpath⟩, htheirs', hfilter⟩
    refine ⟨⟨h, hh, ?_⟩, htheirs', hfilter⟩
    -- the ancestors of their heads are closed, so the path to `c` avoids them
    have hclosed : ∀ a ∈ {a | G.Ancestor theirHeads a}, ∀ d ∈ G.deps a,
        d ∈ {a | G.Ancestor theirHeads a} := by
      rintro a ⟨h', hh', hpath'⟩ d hd
      exact ⟨h', hh', hpath'.tail hd⟩
    have hheads : ∀ a ∈ theirHeads, a ∈ {a | G.Ancestor theirHeads a} := fun a ha => ⟨a, ha, .refl⟩
    exact (reach_of_not_mem G hclosed hheads hpath htheirs' hdeps).2

theorem syncReq_exact_child :
    ∃ ids, SyncsTo (reference fun _ _ => false)
        (HashMapRepoStore.repoStore (reference fun _ _ => false) 0) .ascending
        (twoCommits (reference fun _ _ => false))
        [(headCommit (reference fun _ _ => false)).id (reference fun _ _ => false)]
        [(rootCommit (reference fun _ _ => false)).id (reference fun _ _ => false)] ⟨1, []⟩ ids ∧
      (headCommit (reference fun _ _ => false)).id (reference fun _ _ => false) ∈ ids := by
  let P := reference fun _ _ => false
  have hne : (rootCommit P).id P ≠ (headCommit P).id P := rootCommit_ne
  have hroot : (twoGraph hne).deps ((rootCommit P).id P) = [] := if_neg hne
  have hhead : (twoGraph hne).deps ((headCommit P).id P) ≠ [] := by
    rw [show (twoGraph hne).deps ((headCommit P).id P) = [(rootCommit P).id P] from if_pos rfl]
    exact List.cons_ne_nil _ _
  have hours : ∀ h ∈ [(headCommit P).id P], h ∈ (twoGraph hne).commits := by simp [mem_twoGraph]
  have htheirs : ∀ h ∈ [(rootCommit P).id P], h ∈ (twoGraph hne).commits := by simp [mem_twoGraph]
  obtain ⟨ids, hsync, -, hmem⟩ :=
    syncReq_exact (HashMapRepoStore.lawful P Set.univ 0) trivial .ascending
    (twoGraph hne) hours htheirs ⟨1, []⟩
  refine ⟨ids, hsync, (hmem _ hhead).mpr ⟨⟨_, List.mem_singleton_self _, .refl⟩, ?_, rfl⟩⟩
  rintro ⟨h, hh, hpath⟩
  rw [List.mem_singleton.mp hh] at hpath
  -- the root commit has no dependencies
  obtain heq | ⟨d, hd, -⟩ := hpath.cases_head
  · exact hne heq
  · rw [hroot] at hd
    cases hd

/-- The requester has every commit of `ourHeads` after the request if and only if it had those that
have no dependencies. -/
theorem syncReq_complete_iff {σ : Type} {D : Set BlockBody} {S : RepoStore σ}
    (hS : S.Lawful P D) {s : σ} (hs : hS.Inv s) (order : HashOrder ObjectId)
    (G : CommitGraph P (hS.view s)) {R : Finset ObjectId}
    (hclosed : ∀ c ∈ R, ∀ d ∈ G.deps c, d ∈ R) (hR : R ⊆ G.commits)
    {ourHeads theirHeads : List ObjectId} (hours : ∀ h ∈ ourHeads, h ∈ G.commits)
    (htheirs : ∀ h ∈ theirHeads, h ∈ R) {theirFilter : BloomFilter}
    (hfilter : ∀ c ∈ G.commits, P.bloomContains theirFilter c.bytes = true ↔ c ∈ R) :
    (∃ ids, SyncsTo P S order s ourHeads theirHeads theirFilter ids ∧
      ∀ c, G.Ancestor ourHeads c → c ∈ R ∨ c ∈ ids) ↔
      ∀ c, G.Ancestor ourHeads c → G.deps c = [] → c ∈ R := by
  obtain ⟨ids, hids, -, hmem⟩ :=
    syncReq_spec G order hours (fun h hh => hR (htheirs h hh)) theirFilter
  have hsync : SyncsTo P S order s ourHeads theirHeads theirFilter ids :=
    (syncsTo_iff hS hs order).mpr hids
  constructor
  · rintro ⟨ids', hsync', hcomplete⟩ c hc hroot
    obtain hcR | hcids := hcomplete c hc
    · exact hcR
    · exact absurd hroot
        (hsync'.deps_ne_nil hS hs G hours (fun h hh => hR (htheirs h hh)) hcids)
  · intro hroots
    refine ⟨ids, hsync, fun c hc => ?_⟩
    by_cases hcR : c ∈ R
    · exact .inl hcR
    · refine .inr ((hmem c).mpr ⟨?_, ?_, ?_⟩)
      · obtain ⟨h, hh, hpath⟩ := hc
        have hdeps : G.deps c ≠ [] := fun hnil => hcR (hroots c ⟨h, hh, hpath⟩ hnil)
        exact ⟨h, hh, (reach_of_not_mem G (R := ↑R) hclosed htheirs hpath hcR hdeps).2⟩
      · rintro ⟨h, hh, hreach⟩
        exact hcR (mem_of_reach G (R := ↑R) hclosed hreach.path (htheirs h hh))
      · rw [Bool.eq_false_iff, Ne, hfilter c (ancestor_mem G hours hc)]
        exact hcR

theorem syncReq_complete_iff_child :
    ∃ (bloom : BloomFilter → Blake3Digest32 → Bool) (s : HashMapRepoStore)
      (G : CommitGraph (reference bloom) s.view) (root head : ObjectId) (ids : List ObjectId),
      G.deps head = [root] ∧ G.deps root = [] ∧ head ∈ ids ∧
      SyncsTo (reference bloom) (HashMapRepoStore.repoStore (reference bloom) 0) .ascending s [head]
        [root] ⟨1, []⟩ ids := by
  -- the filter contains the root commit only
  let bloom : BloomFilter → Blake3Digest32 → Bool :=
    fun _ d => decide (d = ((rootCommit (reference fun _ _ => false)).id
      (reference fun _ _ => false)).bytes)
  let P := reference bloom
  have hne : (rootCommit P).id P ≠ (headCommit P).id P := rootCommit_ne
  let G : CommitGraph P (twoCommits P).view := twoGraph hne
  have hroot : G.deps ((rootCommit P).id P) = [] := if_neg hne
  have hhead : G.deps ((headCommit P).id P) = [(rootCommit P).id P] := if_pos rfl
  have hclosed : ∀ c ∈ ({(rootCommit P).id P} : Finset ObjectId), ∀ d ∈ G.deps c,
      d ∈ ({(rootCommit P).id P} : Finset ObjectId) := by
    simp [hroot]
  have hfilter : ∀ c ∈ G.commits, P.bloomContains ⟨1, []⟩ c.bytes = true ↔
      c ∈ ({(rootCommit P).id P} : Finset ObjectId) := by
    intro c _
    rw [Finset.mem_singleton]
    show decide (c.bytes = ((rootCommit P).id P).bytes) = true ↔ c = (rootCommit P).id P
    rw [decide_eq_true_iff]
    exact ⟨congrArg Digest.blake3Digest32, congrArg Digest.bytes⟩
  have hours : ∀ h ∈ [(headCommit P).id P], h ∈ G.commits := by simp [G, mem_twoGraph]
  have hroots : ∀ c, G.Ancestor [(headCommit P).id P] c → G.deps c = [] →
      c ∈ ({(rootCommit P).id P} : Finset ObjectId) := by
    intro c hc hnil
    obtain rfl | rfl := (mem_twoGraph hne).mp (ancestor_mem G hours hc)
    · exact Finset.mem_singleton_self _
    · rw [hhead] at hnil
      cases hnil
  obtain ⟨ids, hsync, hcomplete⟩ := (syncReq_complete_iff (HashMapRepoStore.lawful P Set.univ 0)
    trivial .ascending G hclosed (by simp [G, mem_twoGraph]) hours
    (show ∀ h ∈ [(rootCommit P).id P], h ∈ ({(rootCommit P).id P} : Finset ObjectId) by simp)
    hfilter).mpr hroots
  obtain h | h := hcomplete ((headCommit P).id P) ⟨_, List.mem_singleton_self _, .refl⟩
  · exact absurd (Finset.mem_singleton.mp h).symm hne
  · exact ⟨bloom, twoCommits P, G, (rootCommit P).id P, (headCommit P).id P,
      ids, hhead, hroot, h, hsync⟩

/-- A requester that has nothing does not receive the root commit. -/
theorem syncReq_omits_root :
    ¬ ∀ (order : HashOrder ObjectId) (s : HashMapRepoStore)
      (G : CommitGraph (reference fun _ _ => false) s.view) (R : Finset ObjectId),
      (∀ c ∈ R, ∀ d ∈ G.deps c, d ∈ R) → R ⊆ G.commits →
      ∀ (ourHeads theirHeads : List ObjectId) (theirFilter : BloomFilter), ourHeads ≠ [] →
      (∀ h ∈ ourHeads, h ∈ G.commits) → (∀ h ∈ theirHeads, h ∈ R) →
      (∀ c ∈ G.commits,
        (reference fun _ _ => false).bloomContains theirFilter c.bytes = true ↔ c ∈ R) →
      ∃ ids, SyncsTo (reference fun _ _ => false)
        (HashMapRepoStore.repoStore (reference fun _ _ => false) 0) order s ourHeads theirHeads
        theirFilter ids ∧ ∀ c, G.Ancestor ourHeads c → c ∈ R ∨ c ∈ ids := by
  intro hclaim
  let P := reference fun _ _ => false
  let root := commitBlock P [] []
  let s : HashMapRepoStore := ⟨Function.update (fun _ => none) (root.id P) (some root)⟩
  have hs : ∀ b ∈ [root], s.blocks (b.id P) = some b := by simp [s]
  let G := singles P [root] (fun _ => [])
    (fun b hb => by rw [List.mem_singleton.mp hb]; exact ⟨rfl, rfl⟩) (by simp) hs
  have hroot : ∀ h ∈ [root.id P], h ∈ G.commits := by simp [G, singles]
  obtain ⟨ids, hsync, hcomplete⟩ := hclaim .ascending s G ∅
    (by simp) (by simp) [root.id P] [] ⟨0, []⟩ (by simp) hroot (by simp) (by simp [reference])
  obtain h | h := hcomplete (root.id P) ⟨_, List.mem_singleton_self _, .refl⟩
  · exact absurd h (Finset.notMem_empty _)
  · exact hsync.deps_ne_nil (HashMapRepoStore.lawful P Set.univ 0) trivial G hroot (by simp) h rfl

end Branch

end Lofire
