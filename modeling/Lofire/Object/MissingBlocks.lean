import Lofire.Lib.Acyclic
import Lofire.Object.Malformed
import Lofire.Object.RoundTrip

/-!
# What a load reports as missing

A load whose tree is not complete reports exactly the blocks of the tree that the store does not
return (`loadView_absent`). A load whose tree is complete goes on with the object that the root
refers to, so what it reports is missing from the tree of an object on that chain
(`loadView_missingBlocks`). It returns unless the chain does not end (`loadView_returns_iff`).
-/

namespace Lofire

open Lib

namespace Object

variable {P : Primitives} {v : View}

/-- `c` is a child of the block that the store returns for `p`. -/
def Child (v : View) (p c : BlockId) : Prop := ∃ b, v p = .ok b ∧ c ∈ b.children

/-- The ids of the tree below `id` for which `get` fails. -/
def absent (v : View) (id : BlockId) : Set BlockId := {x | InTree v id x ∧ ∃ e, v x = .error e}

/-- The tree of `p` is complete, and its root refers to the object `r` for its dependencies. -/
def CompleteRefers (v : View) (p r : ObjectId) : Prop := absent v p = ∅ ∧ Refers v p r

/-- The chain of objects that are loaded for the dependencies ends. -/
def ChainEnds (v : View) (id : ObjectId) : Prop := Acc (fun r p => CompleteRefers v p r) id

theorem inTree_iff {id x : BlockId} :
    InTree v id x ↔ id = x ∨ ∃ c, Child v id c ∧ InTree v c x := by
  rw [InTree, Relation.ReflTransGen.cases_head_iff]
  rfl

/-! ## The tree -/

/-- The children that a level adds. -/
def childrenOf (v : View) (p : BlockId) : List BlockId :=
  (v p).toOption.toList.flatMap fun b => b.children

theorem mem_childrenOf {p c : BlockId} : c ∈ childrenOf v p ↔ Child v p c := by
  cases h : v p with
  | ok b => simp [childrenOf, Child, h, Except.toOption]
  | error e => simp [childrenOf, Child, h, Except.toOption]

theorem loadLevel_spec (parents children : List BlockId) (blocks : List Block)
    (missing : List BlockId) :
    loadLevel (m := Id) v parents children blocks missing =
      (children ++ parents.flatMap (fun p => (childrenOf v p).reverse),
        (parents.filterMap fun p => (v p).toOption).reverse ++ blocks,
        missing ++ parents.filter fun p => (v p).toOption.isNone) := by
  induction parents generalizing children blocks missing with
  | nil => simp [loadLevel]; rfl
  | cons p parents ih =>
    simp only [loadLevel, id_bind]
    cases hp : v p with
    | ok b => simp [ih, childrenOf, hp, Except.toOption]
    | error e => simp [ih, childrenOf, hp, Except.toOption]

/-- The trees below a level are the level and the trees below the next one. -/
theorem exists_inTree_level {parents : List BlockId} {Q : BlockId → Prop} :
    (∃ p ∈ parents, ∃ x, InTree v p x ∧ Q x) ↔
      (∃ p ∈ parents, Q p) ∨
        ∃ c ∈ parents.flatMap (fun p => (childrenOf v p).reverse), ∃ x, InTree v c x ∧ Q x := by
  constructor
  · rintro ⟨p, hp, x, hx, hQ⟩
    obtain rfl | ⟨c, hc, hx⟩ := inTree_iff.mp hx
    · exact .inl ⟨p, hp, hQ⟩
    · refine .inr ⟨c, List.mem_flatMap.mpr ⟨p, hp, ?_⟩, x, hx, hQ⟩
      exact List.mem_reverse.mpr (mem_childrenOf.mpr hc)
  · rintro (⟨p, hp, hQ⟩ | ⟨c, hc, x, hx, hQ⟩)
    · exact ⟨p, hp, p, .refl, hQ⟩
    · obtain ⟨p, hp, hc⟩ := List.mem_flatMap.mp hc
      exact ⟨p, hp, x, inTree_iff.mpr (.inr ⟨c, mem_childrenOf.mp (List.mem_reverse.mp hc), hx⟩),
        hQ⟩

theorem mem_absent_iff {id x : BlockId} :
    x ∈ absent v id ↔ ∃ y, InTree v id y ∧ y = x ∧ ∃ e, v y = .error e := by
  constructor
  · exact fun hx => ⟨x, hx.1, rfl, hx.2⟩
  · rintro ⟨y, hy, rfl, he⟩
    exact ⟨hy, he⟩

/-- What is loaded with a tree are the blocks that the store returns for its ids, and what is
missing are the ids for which it returns none. -/
theorem loadTree_mem {fuel : Nat} {parents missing ms : List BlockId} {blocks bs : List Block}
    (h : loadTree (m := Id) v fuel parents blocks missing = some (bs, ms)) :
    (∀ x, x ∈ ms ↔ x ∈ missing ∨ ∃ p ∈ parents, x ∈ absent v p) ∧
      ∀ b, b ∈ bs ↔ b ∈ blocks ∨ ∃ p ∈ parents, ∃ x, InTree v p x ∧ v x = .ok b := by
  induction fuel generalizing parents blocks missing with
  | zero => cases h
  | succ fuel ih =>
    rw [loadTree_succ, loadLevel_spec, List.nil_append] at h
    have hfails : ∀ x, (∃ p ∈ parents, p = x ∧ ∃ e, v p = .error e) ↔
        x ∈ parents.filter fun p => (v p).toOption.isNone := by
      intro x
      rw [List.mem_filter]
      cases hx : v x <;> simp [Except.toOption, hx]
    have hreturns : ∀ b, (∃ p ∈ parents, v p = .ok b) ↔
        b ∈ (parents.filterMap fun p => (v p).toOption).reverse := by
      intro b
      rw [List.mem_reverse, List.mem_filterMap]
      refine exists_congr fun p => and_congr_right fun _ => ?_
      cases hp : v p <;> simp [Except.toOption]
    have habsent : ∀ x, (∃ p ∈ parents, x ∈ absent v p) ↔
        x ∈ parents.filter (fun p => (v p).toOption.isNone) ∨
          ∃ c ∈ parents.flatMap (fun p => (childrenOf v p).reverse), x ∈ absent v c := by
      intro x
      rw [← hfails]
      simp only [mem_absent_iff]
      exact exists_inTree_level
    have hheld : ∀ b, (∃ p ∈ parents, ∃ x, InTree v p x ∧ v x = .ok b) ↔
        b ∈ (parents.filterMap fun p => (v p).toOption).reverse ∨
          ∃ c ∈ parents.flatMap (fun p => (childrenOf v p).reverse), ∃ x,
          InTree v c x ∧ v x = .ok b := by
      intro b
      rw [← hreturns]
      exact exists_inTree_level
    split at h
    · rename_i hnil
      cases h
      have hnil : parents.flatMap (fun p => (childrenOf v p).reverse) = [] :=
        List.isEmpty_iff.mp hnil
      refine ⟨fun x => ?_, fun b => ?_⟩
      · rw [habsent, hnil, List.mem_append]
        simp
      · rw [hheld, hnil, List.mem_append]
        simp [or_comm]
    · obtain ⟨hmissing, hblocks⟩ := ih h
      refine ⟨fun x => ?_, fun b => ?_⟩
      · rw [hmissing, habsent, List.mem_append, or_assoc]
      · rw [hblocks, hheld, List.mem_append, or_assoc, or_left_comm]

/-- A tree of bounded depth is loaded. -/
theorem loadTree_within {n fuel : Nat} {parents : List BlockId}
    (h : ∀ p ∈ parents, Within (Child v) n p) (hfuel : n < fuel) (blocks : List Block)
    (missing : List BlockId) :
    ∃ res, loadTree (m := Id) v fuel parents blocks missing = some res := by
  induction n generalizing parents fuel blocks missing with
  | zero =>
    obtain ⟨fuel, rfl⟩ : ∃ k, fuel = k + 1 := ⟨fuel - 1, by omega⟩
    have hnil : parents.flatMap (fun p => (childrenOf v p).reverse) = [] := by
      rw [List.flatMap_eq_nil_iff]
      intro p hp
      rw [List.reverse_eq_nil_iff, List.eq_nil_iff_forall_not_mem]
      exact fun c hc => h p hp c (mem_childrenOf.mp hc)
    rw [loadTree_succ, loadLevel_spec, List.nil_append, hnil]
    exact ⟨_, rfl⟩
  | succ n ih =>
    obtain ⟨fuel, rfl⟩ : ∃ k, fuel = k + 1 := ⟨fuel - 1, by omega⟩
    rw [loadTree_succ, loadLevel_spec, List.nil_append]
    split
    · exact ⟨_, rfl⟩
    · refine ih (fun c hc => ?_) (by omega) ..
      obtain ⟨p, hp, hc⟩ := List.mem_flatMap.mp hc
      exact h p hp c (mem_childrenOf.mp (List.mem_reverse.mp hc))

/-- Without a cycle of children, every tree is loaded. -/
theorem loadTree_returns (hacyc : Acyclic (Child v))
    (id : BlockId) :
    ∃ bs ms, Returns (fun fuel => loadTree (m := Id) v fuel [id] [] []) (bs, ms) := by
  obtain ⟨n, hn⟩ := exists_within (wellFounded_of_acyclic hacyc (Set.toFinite _))
    (fun _ _ h => mem_childrenOf.mpr h) id
  have hroot : ∀ p ∈ [id], Within (Child v) n p := by simpa using hn
  obtain ⟨⟨bs, ms⟩, hres⟩ := loadTree_within hroot (Nat.lt_succ_self n) [] []
  exact ⟨bs, ms, (loadTree_mono v [id] [] []).returns hres⟩

/-- The tree is loaded in whole exactly if no id of it is absent. -/
theorem tree_mem {id : BlockId} {bs : List Block} {ms : List BlockId}
    (h : Returns (fun fuel => loadTree (m := Id) v fuel [id] [] []) (bs, ms)) :
    {x | x ∈ ms} = absent v id ∧ ∀ b, b ∈ bs ↔ ∃ x, InTree v id x ∧ v x = .ok b := by
  obtain ⟨n, hn⟩ := h
  obtain ⟨hmissing, hblocks⟩ := loadTree_mem (hn n (Nat.le_refl n))
  refine ⟨Set.ext fun x => ?_, fun b => ?_⟩
  · simpa using hmissing x
  · simpa using hblocks b

/-! ## The object -/

theorem collectLevel_error {blocks : List Block} {refs : List (ObjectId × SymKey)} {i : Nat}
    {children : List (ObjectId × SymKey)} {out : Collected} {e : ObjectParseError}
    (h : collectLevel P blocks refs i children out = some (.error e)) (m : List BlockId) :
    e ≠ .missingBlocks m := by
  induction refs generalizing i children out with
  | nil => cases h
  | cons ref refs ih =>
    obtain ⟨id, key⟩ := ref
    rw [collectLevel] at h
    split at h
    · cases h
    · split at h
      · cases h
        rintro ⟨⟩
      · split at h
        · cases h
          rintro ⟨⟩
        · split at h
          · cases h
            rintro ⟨⟩
          · exact ih h
        · exact ih h

theorem collectLeaves_error {blocks : List Block} {fuel : Nat}
    {refs : List (ObjectId × SymKey)} {i : Nat}
    {out : Collected} {e : ObjectParseError}
    (h : collectLeaves P blocks fuel refs i out = some (.error e)) (m : List BlockId) :
    e ≠ .missingBlocks m := by
  induction fuel generalizing refs i out with
  | zero => cases h
  | succ fuel ih =>
    rw [collectLeaves] at h
    split at h
    · cases h
    · rename_i e' hlevel
      cases h
      exact collectLevel_error hlevel m
    · split at h
      · cases h
      · split at h
        · cases h
          rintro ⟨⟩
        · exact ih h

/-- `content` does not report missing blocks. -/
theorem content_error {o : Object} {e : ObjectParseError} (h : o.content P = some (.error e))
    (m : List BlockId) : e ≠ .missingBlocks m := by
  unfold content at h
  split at h
  · cases h
  · cases h
    nofun
  · split at h
    · cases h
    · split at h
      · cases h
      · rename_i hrun
        cases h
        exact collectLeaves_error hrun m
      · split at h
        · cases h
          nofun
        · cases h

/-- What `loadDeps` returns when the root refers to another object. -/
theorem loadDeps_cases {lows : List Block} {b : Block} {ref : ObjectRef}
    (hb : b.deps = .depListRef ref)
    {fuel : Nat} {res : Except ObjectParseError Object}
    (h : loadDeps P v (lows ++ [b]) fuel = some res) :
    (∃ e, loadView P v ref.id (some ref.key) fuel = some (.error e) ∧ res = .error e) ∨
      ∃ obj c, loadView P v ref.id (some ref.key) fuel = some (.ok obj) ∧ obj.content P = some c ∧
        ((∃ e, c = .error e ∧ res = .error e) ∨ (∃ deps, res = .ok ⟨lows ++ [b], deps⟩) ∨
          res = .error .invalidDeps) := by
  simp only [loadDeps, List.getLast?_concat, Option.bind_some, hb] at h
  obtain ⟨loaded, hload, h⟩ := Option.bind_eq_some_iff.mp h
  obtain e | obj := loaded
  · cases h
    exact .inl ⟨e, hload, rfl⟩
  · obtain ⟨c, hcontent, h⟩ := Option.bind_eq_some_iff.mp h
    refine .inr ⟨obj, c, hload, hcontent, ?_⟩
    obtain e | c := c
    · cases h
      exact .inl ⟨e, rfl, rfl⟩
    · cases c with
      | depList deps =>
        cases h
        exact .inr (.inl ⟨deps, rfl⟩)
      | commit => exact .inr (.inr (Option.some.inj h).symm)
      | commitBody => exact .inr (.inr (Option.some.inj h).symm)
      | file => exact .inr (.inr (Option.some.inj h).symm)

/-- How a load goes on from its tree: either the tree is not complete and the load reports what is
absent, or the root is read. -/
theorem loadView_cases {id : ObjectId} {key : Option SymKey} {fuel : Nat}
    {res : Except ObjectParseError Object} (h : loadView P v id key (fuel + 1) = some res) :
    (∃ m, res = .error (.missingBlocks m) ∧ m ≠ [] ∧ {x | x ∈ m} = absent v id) ∨
      ∃ b lows root, absent v id = ∅ ∧ v id = .ok b ∧ root.deps = b.deps ∧
        loadDeps P v (lows ++ [root]) fuel = some res := by
  rw [loadView_succ] at h
  obtain ⟨⟨bs, ms⟩, htree, h⟩ := Option.bind_eq_some_iff.mp h
  obtain ⟨hmissing, -⟩ := tree_mem ((loadTree_mono v [id] [] []).returns htree)
  split at h
  · rename_i hne
    cases h
    exact .inl ⟨ms, rfl, by simpa using hne, hmissing⟩
  · rename_i hnil
    have hnil : ms = [] := by simpa using hnil
    subst hnil
    obtain ⟨b, lows, hb, rfl⟩ := loadTree_root htree
    rw [setRootKey_concat] at h
    refine .inr ⟨b, lows, _, ?_, hb, ?_, h⟩
    · rw [← hmissing]
      simp
    · split <;> rfl

theorem loadDeps_blocks {blocks : List Block} {fuel : Nat} {o : Object}
    (h : loadDeps P v blocks fuel = some (.ok o)) : o.blocks = blocks := by
  obtain ⟨root, -, h⟩ := Option.bind_eq_some_iff.mp h
  split at h
  · cases h
    rfl
  · obtain ⟨res, -, h⟩ := Option.bind_eq_some_iff.mp h
    split at h
    · cases h
    · obtain ⟨c, -, h⟩ := Option.bind_eq_some_iff.mp h
      split at h
      · cases h
      · cases h
        rfl
      · cases h

/-- A load has blocks. -/
theorem loadView_blocks_ne_nil {id : ObjectId} {key : Option SymKey} {fuel : Nat} {o : Object}
    (h : loadView P v id key fuel = some (.ok o)) : o.blocks ≠ [] := by
  cases fuel with
  | zero => cases h
  | succ fuel =>
    obtain ⟨m, hm, -⟩ | ⟨b, lows, root, -, -, -, h⟩ := loadView_cases h
    · cases hm
    · rw [loadDeps_blocks h]
      exact List.append_ne_nil_of_right_ne_nil _ (List.cons_ne_nil _ _)

/-- If the object for the dependencies is loaded, the dependencies are read. -/
theorem loadDeps_returns (lows : List Block) {b : Block} {ref : ObjectRef}
    (hb : b.deps = .depListRef ref)
    {fuel : Nat} {loaded : Except ObjectParseError Object}
    (h : loadView P v ref.id (some ref.key) fuel = some loaded) :
    ∃ res, loadDeps P v (lows ++ [b]) fuel = some res := by
  simp only [loadDeps, List.getLast?_concat, Option.bind_some, hb, h]
  obtain e | obj := loaded
  · exact ⟨_, rfl⟩
  · obtain ⟨c, hcontent⟩ := exists_content (P := P) (loadView_blocks_ne_nil h)
    simp only [hcontent, Option.bind_some]
    obtain e | c := c
    · exact ⟨_, rfl⟩
    · cases c <;> exact ⟨_, rfl⟩

/-- A load whose tree is not complete reports what is absent. -/
theorem loadView_absent (hacyc : Acyclic (Child v))
    {id : ObjectId} (hne : (absent v id).Nonempty) (key : Option SymKey) :
    ∃ m, Returns (loadView P v id key) (.error (.missingBlocks m)) ∧ {x | x ∈ m} = absent v id := by
  obtain ⟨bs, ms, htree⟩ := loadTree_returns hacyc id
  obtain ⟨hmissing, -⟩ := tree_mem htree
  refine ⟨ms, ?_, hmissing⟩
  obtain ⟨n, hn⟩ := htree
  dsimp only at hn
  refine (loadView_mono v id key).returns (n := n + 1) ?_
  obtain ⟨x, hx⟩ := hne
  rw [← hmissing] at hx
  have hms : ms ≠ [] := List.ne_nil_of_mem hx
  rw [loadView_succ, hn (n + 1) (Nat.le_succ n), Option.bind_some, if_pos (by simpa using hms)]

/-- What a load reports as missing is what is absent of an object on its chain. -/
theorem loadView_missingBlocks {id : ObjectId} {key : Option SymKey} {fuel : Nat} {m : List BlockId}
    (h : loadView P v id key fuel = some (.error (.missingBlocks m))) :
    ∃ r, Relation.ReflTransGen (CompleteRefers v) id r ∧ (absent v r).Nonempty ∧
      {x | x ∈ m} = absent v r := by
  induction fuel generalizing id key with
  | zero => cases h
  | succ fuel ih =>
    obtain ⟨m', hm', hne, hmissing⟩ | ⟨b, lows, root, hcomplete, hb, hroot, h⟩ := loadView_cases h
    · cases hm'
      refine ⟨id, .refl, ?_, hmissing⟩
      obtain ⟨x, hx⟩ := List.exists_mem_of_ne_nil m hne
      exact ⟨x, by rwa [← hmissing]⟩
    · cases hdeps : root.deps with
      | objectIdList deps =>
        rw [loadDeps_idList hdeps] at h
        cases h
      | depListRef ref =>
        obtain ⟨e, hload, he⟩ | ⟨obj, c, -, hcontent, ⟨e, rfl, he⟩ | ⟨deps, ho⟩ | he⟩ :=
          loadDeps_cases hdeps h
        · cases he
          obtain ⟨r, hpath, hr⟩ := ih hload
          exact ⟨r, .head ⟨hcomplete, b, ref, hb, hroot ▸ hdeps, rfl⟩ hpath, hr⟩
        · cases he
          exact absurd rfl (content_error hcontent m)
        · cases ho
        · cases he

theorem loadView_missingBlocks_ne_nil {id : ObjectId} {key : Option SymKey} {fuel : Nat}
    {m : List BlockId} (h : loadView P v id key fuel = some (.error (.missingBlocks m))) :
    m ≠ [] := by
  obtain ⟨r, -, ⟨x, hx⟩, hm⟩ := loadView_missingBlocks h
  rw [← hm] at hx
  exact List.ne_nil_of_mem hx

/-- A load returns exactly if the chain of its objects ends. -/
theorem loadView_returns_iff (hacyc : Acyclic (Child v))
    (id : ObjectId) (key : Option SymKey) :
    (∃ res, Returns (loadView P v id key) res) ↔ ChainEnds v id := by
  constructor
  · rintro ⟨res, n, hn⟩
    have h := hn n (Nat.le_refl n)
    clear hn
    induction n generalizing id key res with
    | zero => cases h
    | succ n ih =>
      refine ⟨_, fun r hr => ?_⟩
      obtain ⟨hcomplete, b, ref, hb, hdeps, rfl⟩ := hr
      obtain ⟨m, rfl, hne, hmissing⟩ | ⟨b', lows, root, -, hb', hroot, h⟩ := loadView_cases h
      · rw [hcomplete] at hmissing
        obtain ⟨x, hx⟩ := List.exists_mem_of_ne_nil m hne
        exact absurd hx (Set.eq_empty_iff_forall_notMem.mp hmissing x)
      · rw [hb, Except.ok.injEq] at hb'
        subst hb'
        obtain ⟨e, hload, -⟩ | ⟨obj, c, hload, -⟩ := loadDeps_cases (hroot.trans hdeps) h
        · exact ih _ _ _ hload
        · exact ih _ _ _ hload
  · intro hends
    induction hends generalizing key with
    | intro id _ ih =>
      obtain ⟨bs, ms, htree⟩ := loadTree_returns hacyc id
      obtain ⟨hmissing, -⟩ := tree_mem htree
      by_cases hms : ms = []
      · subst hms
        obtain ⟨n, hn⟩ := htree
        dsimp only at hn
        obtain ⟨b, lows, hb, rfl⟩ := loadTree_root (hn n (Nat.le_refl n))
        have hcomplete : absent v id = ∅ := by
          rw [← hmissing]
          simp
        have hload : ∀ fuel, n ≤ fuel → loadView P v id key (fuel + 1) =
            loadDeps P v (lows ++ [if key.isSome then b.setKey key else b]) fuel := by
          intro fuel hle
          rw [loadView_succ, hn (fuel + 1) (by omega), Option.bind_some, setRootKey_concat]
          rfl
        have hroot : (if key.isSome then b.setKey key else b).deps = b.deps := by
          split <;> rfl
        cases hdeps : b.deps with
        | objectIdList deps =>
          exact ⟨_, (loadView_mono v id key).returns
            ((hload n (Nat.le_refl n)).trans (loadDeps_idList (hroot.trans hdeps) n))⟩
        | depListRef ref =>
          obtain ⟨loaded, k, hk⟩ := ih ref.id ⟨hcomplete, b, ref, hb, hdeps, rfl⟩ (some ref.key)
          obtain ⟨res, hres⟩ := loadDeps_returns lows (hroot.trans hdeps)
            (hk (max n k) (Nat.le_max_right n k))
          refine ⟨res, (loadView_mono v id key).returns (n := max n k + 1) ?_⟩
          rw [hload _ (Nat.le_max_left n k), hres]
      · obtain ⟨x, hx⟩ := List.exists_mem_of_ne_nil ms hms
        have hne : (absent v id).Nonempty := ⟨x, by rwa [← hmissing]⟩
        obtain ⟨m, hload, -⟩ := loadView_absent (P := P) hacyc hne key
        exact ⟨_, hload⟩

/-! ## Loading from a store -/

section Store

variable {σ : Type} {D : Set BlockBody} {S : RepoStore σ} (hS : S.Lawful P D) {s : σ}

/-- `load_tree` from the store in state `s` loads `blocks`, and nothing is missing. -/
def TreeLoadsFrom (S : RepoStore σ) (s : σ) (id : ObjectId) (blocks : List Block) : Prop :=
  ∃ n, ∀ fuel, n ≤ fuel → ∃ s', loadTree S.get fuel [id] [] [] s = .ok (some (blocks, [])) s'

include hS in
theorem treeLoadsFrom_of_view (hs : hS.Inv s) {id : ObjectId} {blocks : List Block}
    (h : Returns (fun fuel => loadTree (m := Id) (hS.view s) fuel [id] [] []) (blocks, [])) :
    TreeLoadsFrom S s id blocks := by
  obtain ⟨n, hn⟩ := h
  refine ⟨n, fun fuel hle => ?_⟩
  have hreads : hS.Reads (hS.view s) (loadTree S.get fuel [id] [] [])
      (loadTree (m := Id) (hS.view s) fuel [id] [] []) :=
    loadTree_yields (hS.yields (hS.view s)) fuel (fun _ _ _ _ => .get _) [] []
  obtain ⟨s', hrun, -⟩ := hreads.run s hs rfl
  have hres := hn fuel hle
  dsimp only at hres
  rw [hres] at hrun
  exact ⟨s', hrun⟩

include hS in
/-- A load reports exactly what is missing: the absent ids of its tree, or, if the tree is complete,
those of an object on the chain of dependency lists. It returns unless that chain does not end. -/
theorem load_reports_absent (hs : hS.Inv s) (hacyc : Acyclic (Child (hS.view s)))
    (id : ObjectId) (key : Option SymKey) :
    ((absent (hS.view s) id).Nonempty →
      ∃ m, LoadsFrom P S s id key (.error (.missingBlocks m)) ∧
      {x | x ∈ m} = absent (hS.view s) id) ∧
    (absent (hS.view s) id = ∅ →
      (∃ blocks, TreeLoadsFrom S s id blocks ∧
        ∀ b, b ∈ blocks ↔ ∃ x, InTree (hS.view s) id x ∧ hS.view s x = .ok b) ∧
      ∀ m, LoadsFrom P S s id key (.error (.missingBlocks m)) →
        ∃ r r', CompleteRefers (hS.view s) id r ∧
          Relation.ReflTransGen (CompleteRefers (hS.view s)) r r' ∧
          (absent (hS.view s) r').Nonempty ∧
          {x | x ∈ m} = absent (hS.view s) r') ∧
    ((∃ res, LoadsFrom P S s id key res) ↔ ChainEnds (hS.view s) id) := by
  simp only [loadsFrom_iff hS hs]
  refine ⟨fun hne => loadView_absent hacyc hne key, fun hcomplete => ⟨?_, ?_⟩,
    loadView_returns_iff hacyc id key⟩
  · obtain ⟨bs, ms, htree⟩ := loadTree_returns hacyc id
    obtain ⟨hmissing, hblocks⟩ := tree_mem htree
    have hnil : ms = [] := by
      rw [hcomplete] at hmissing
      exact List.eq_nil_iff_forall_not_mem.mpr (Set.eq_empty_iff_forall_notMem.mp hmissing)
    subst hnil
    exact ⟨bs, treeLoadsFrom_of_view hS hs htree, hblocks⟩
  · rintro m ⟨n, hn⟩
    obtain ⟨r', hpath, hne, hm⟩ := loadView_missingBlocks (hn n (Nat.le_refl n))
    obtain rfl | ⟨r, hr, hpath⟩ := hpath.cases_head
    · rw [hcomplete] at hne
      exact absurd hne Set.not_nonempty_empty
    · exact ⟨r, r', hr, hpath, hne, hm⟩

end Store

/-- A root with two children, of which the store holds the first. -/
def oneChild : HashMapRepoStore where
  blocks id :=
    if id = ⟨.replicate 32 1⟩ then
      some ⟨⟨[⟨.replicate 32 2⟩, ⟨.replicate 32 3⟩], .objectIdList [], none, []⟩, none, none⟩
    else if id = ⟨.replicate 32 2⟩ then some ⟨⟨[], .objectIdList [], none, []⟩, none, none⟩
    else none

theorem load_reports_absent_oneChild :
    ∃ m, LoadsFrom (reference fun _ _ => false)
    (HashMapRepoStore.repoStore (reference fun _ _ => false) 0)
      oneChild ⟨.replicate 32 1⟩ none (.error (.missingBlocks m)) ∧ ⟨.replicate 32 3⟩ ∈ m := by
  let hS := HashMapRepoStore.lawful (reference fun _ _ => false) ∅ 0
  have hview : ∀ p b, oneChild.view p = .ok b →
      (p = ⟨.replicate 32 1⟩ ∧ b.children = [⟨.replicate 32 2⟩, ⟨.replicate 32 3⟩]) ∨
        (p = ⟨.replicate 32 2⟩ ∧ b.children = []) := by
    intro p b h
    simp only [HashMapRepoStore.view, oneChild] at h
    split_ifs at h with h1 h2
    · cases h
      exact .inl ⟨h1, rfl⟩
    · cases h
      exact .inr ⟨h2, rfl⟩
  have hchild : ∀ p c, Child oneChild.view p c → p = ⟨.replicate 32 1⟩ ∧ c ≠ ⟨.replicate 32 1⟩ := by
    rintro p c ⟨b, hb, hc⟩
    obtain ⟨hp, hchildren⟩ | ⟨-, hchildren⟩ := hview p b hb
    · rw [hchildren] at hc
      refine ⟨hp, ?_⟩
      obtain rfl | rfl : c = ⟨.replicate 32 2⟩ ∨ c = ⟨.replicate 32 3⟩ := by simpa using hc
      · decide
      · decide
    · rw [hchildren] at hc
      cases hc
  have hacyc : Acyclic (Child oneChild.view) :=
    acyclic_of_rank (fun x => if x = ⟨.replicate 32 1⟩ then 1 else 0) fun p c hpc => by
      obtain ⟨hp, hc⟩ := hchild p c hpc
      rw [if_pos hp, if_neg hc]
      exact Nat.zero_lt_one
  have habsent : ⟨.replicate 32 3⟩ ∈ absent oneChild.view ⟨.replicate 32 1⟩ :=
    ⟨.single ⟨_, rfl, by simp⟩, .notFound, rfl⟩
  obtain ⟨m, hload, hm⟩ :=
    (load_reports_absent hS trivial hacyc ⟨.replicate 32 1⟩ none).1 ⟨_, habsent⟩
  exact ⟨m, hload, hm.symm.subset habsent⟩

end Object

end Lofire
