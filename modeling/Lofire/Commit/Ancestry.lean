import Lofire.Commit
import Lofire.Object.MissingBlocks

/-!
# The commits that `verify_deps` explores

The relevant commits are those that are reached from a commit through `deps` and `acks` without
passing a commit whose body is a `Branch`. `verify_deps` loads all of them and their bodies
(`verifyDeps_exact`): a walk settles every commit that it marks, and it marks relevant commits only
(`loadBranch_spec`).
-/

namespace Lofire

open Lib

namespace Commit

open Branch (Walk)

variable {P : Primitives} {v : Object.View}

/-! ## Relevant commits -/

/-- `Commit::load` returns `res`. -/
def Loads (P : Primitives) (v : Object.View) (r : ObjectRef)
    (res : Except CommitLoadError Commit) : Prop :=
  Returns (fun fuel => load (m := Id) P v fuel r) res

/-- `load_body` of a commit returns `res`. -/
def LoadsBody (P : Primitives) (v : Object.View) (c : Commit)
    (res : Except CommitLoadError CommitBody) :
    Prop :=
  Returns (fun fuel => loadBodyRef (m := Id) P v fuel c.content.body) res

/-- The body of the commit loads and is a `Branch`. -/
def IsRoot (P : Primitives) (v : Object.View) (c : Commit) : Prop :=
  ∃ b, LoadsBody P v c (.ok b) ∧ b.toType = .branch

/-- The given commit, and the commits that are reached from it without passing a root. -/
inductive Relevant (P : Primitives) (v : Object.View) (commit : Commit) : Commit → Prop
  | self : Relevant P v commit commit
  | dep {c c' : Commit} {r : ObjectRef} (hc : Relevant P v commit c) (hroot : ¬ IsRoot P v c)
      (hr : r ∈ c.depsAcks) (hload : Loads P v r (.ok c')) : Relevant P v commit c'

/-- A reference to a relevant commit, be it in the store or not. -/
def RelevantRef (P : Primitives) (v : Object.View) (commit : Commit) (r : ObjectRef) : Prop :=
  ∃ c, Relevant P v commit c ∧ ¬ IsRoot P v c ∧ r ∈ c.depsAcks

/-- No relevant commit or body fails to load for a reason other than missing blocks. -/
structure OnlyMissing (P : Primitives) (v : Object.View) (commit : Commit) : Prop where
  loads : ∀ r, RelevantRef P v commit r →
    (∃ c, Loads P v r (.ok c)) ∨ ∃ ids, Loads P v r (.error (.missingBlocks ids))
  bodies : ∀ c, Relevant P v commit c →
    (∃ b, LoadsBody P v c (.ok b)) ∨ ∃ ids, LoadsBody P v c (.error (.missingBlocks ids))

/-- An id names one commit: the references to it give the same content, and so does the commit
itself. -/
def NamesOne (P : Primitives) (v : Object.View) (commit : Commit) : Prop :=
  ∀ c c', Relevant P v commit c → Relevant P v commit c' → c.id?.isSome → c.id? = c'.id? →
    c.content = c'.content

/-- Every relevant commit and every relevant body loads. -/
def Complete (P : Primitives) (v : Object.View) (commit : Commit) : Prop :=
  (∀ r, RelevantRef P v commit r → ∃ c, Loads P v r (.ok c)) ∧
    ∀ c, Relevant P v commit c → ∃ b, LoadsBody P v c (.ok b)

/-- The blocks that are reported missing by loading the relevant commits and bodies. -/
def missingIds (P : Primitives) (v : Object.View) (commit : Commit) : Set BlockId :=
  {x | (∃ r ids, RelevantRef P v commit r ∧ Loads P v r (.error (.missingBlocks ids)) ∧ x ∈ ids) ∨
    ∃ c ids, Relevant P v commit c ∧ LoadsBody P v c (.error (.missingBlocks ids)) ∧ x ∈ ids}

/-! ## One walk -/

/-- With a large enough bound, `load` and `body` do what `Commit::load` and `load_body` do. -/
structure Fueled (P : Primitives) (v : Object.View)
    (load : ObjectRef → Option (Except CommitLoadError Commit))
    (body : Commit → Option (Except CommitLoadError CommitBody)) : Prop where
  load_eq : ∀ r res, Loads P v r res → load r = some res
  body_eq : ∀ c res, LoadsBody P v c res → body c = some res

variable {commit : Commit}

/-- What a walk has collected is relevant. -/
structure Sound (P : Primitives) (v : Object.View) (commit : Commit) (w : Walk) : Prop where
  visited : ∀ x ∈ w.visited, ∃ c, Relevant P v commit c ∧ c.id? = some x
  missing : ∀ x ∈ w.missing, x ∈ missingIds P v commit

/-- The missing blocks of the reference are collected, or its commit is visited. -/
structure SettledRef (P : Primitives) (v : Object.View) (w : Walk) (r : ObjectRef) : Prop where
  missing : ∀ ids, Loads P v r (.error (.missingBlocks ids)) → ∀ x ∈ ids, x ∈ w.missing
  visited : ∀ c, Loads P v r (.ok c) → r.id ∈ w.visited

/-- The missing blocks of the body are collected, and the dependencies are settled. -/
structure Settled (P : Primitives) (v : Object.View) (w : Walk) (c : Commit) : Prop where
  body : ∀ ids, LoadsBody P v c (.error (.missingBlocks ids)) → ∀ x ∈ ids, x ∈ w.missing
  deps : ¬ IsRoot P v c → ∀ r ∈ c.depsAcks, SettledRef P v w r

/-- The later walk has collected more, and has settled what it has visited since. -/
structure Extends (P : Primitives) (v : Object.View) (commit : Commit) (w w' : Walk) : Prop where
  visited : w.visited ⊆ w'.visited
  missing : w.missing ⊆ w'.missing
  settled : ∀ c, Relevant P v commit c → ∀ x, c.id? = some x → x ∈ w'.visited → x ∉ w.visited →
    Settled P v w' c

variable {w w' w'' : Walk} {c c' : Commit} {r : ObjectRef}

theorem SettledRef.mono (h : SettledRef P v w r) (hvisited : w.visited ⊆ w'.visited)
    (hmissing : w.missing ⊆ w'.missing) : SettledRef P v w' r where
  missing ids hids x hx := hmissing (h.missing ids hids x hx)
  visited c hc := hvisited (h.visited c hc)

theorem Settled.mono (h : Settled P v w c) (hvisited : w.visited ⊆ w'.visited)
    (hmissing : w.missing ⊆ w'.missing) : Settled P v w' c where
  body ids hids x hx := hmissing (h.body ids hids x hx)
  deps hroot r hr := (h.deps hroot r hr).mono hvisited hmissing

/-- Only the content of a commit matters. -/
theorem Settled.congr (h : Settled P v w c) (heq : c.content = c'.content) : Settled P v w c' := by
  obtain ⟨hbody, hdeps⟩ := h
  simp only [LoadsBody, IsRoot, depsAcks, heq] at hbody hdeps
  exact ⟨hbody, hdeps⟩

theorem Extends.refl (w : Walk) : Extends P v commit w w where
  visited := subset_rfl
  missing := subset_rfl
  settled _ _ _ _ hx hnew := absurd hx hnew

theorem Extends.trans (h : Extends P v commit w w') (h' : Extends P v commit w' w'') :
    Extends P v commit w w'' where
  visited := h.visited.trans h'.visited
  missing := h.missing.trans h'.missing
  settled c hc x hid hx hnew := by
    by_cases hx' : x ∈ w'.visited
    · exact (h.settled c hc x hid hx' hnew).mono h'.visited h'.missing
    · exact h'.settled c hc x hid hx hx'

/-- Missing blocks are added. -/
theorem Extends.addMissing (w : Walk) (ids : List BlockId) :
    Extends P v commit w { w with missing := w.missing ∪ ids.toFinset } where
  visited := subset_rfl
  missing := Finset.subset_union_left
  settled _ _ _ _ hx hnew := absurd hx hnew

theorem Sound.addMissing (h : Sound P v commit w) {ids : List BlockId}
    (hids : ∀ x ∈ ids, x ∈ missingIds P v commit) :
    Sound P v commit { w with missing := w.missing ∪ ids.toFinset } where
  visited := h.visited
  missing x hx := by
    obtain hx | hx := Finset.mem_union.mp hx
    · exact h.missing x hx
    · exact hids x (List.mem_toFinset.mp hx)

/-! ## What the loads return -/

theorem Loads.id_eq (h : Loads P v r (.ok c)) : c.id? = some r.id := by
  obtain ⟨n, hn⟩ := h
  have hload := hn n (Nat.le_refl n)
  simp only [load, id_bind] at hload
  split at hload
  · cases hload
  · split at hload
    · cases hload
    · cases hload
    · cases hload
      rfl
    · cases hload
  · cases hload
  · cases hload

/-- A load that reports missing blocks reports some. -/
theorem Loads.missing_ne_nil {ids : List BlockId} (h : Loads P v r (.error (.missingBlocks ids))) :
    ids ≠ [] := by
  obtain ⟨n, hn⟩ := h
  have hload := hn n (Nat.le_refl n)
  simp only [load, id_bind] at hload
  split at hload
  · cases hload
  · split at hload
    · cases hload
    · cases hload
    · cases hload
    · cases hload
  · rename_i ids' hobj
    cases hload
    exact Object.loadView_missingBlocks_ne_nil hobj
  · cases hload

theorem LoadsBody.missing_ne_nil {ids : List BlockId}
    (h : LoadsBody P v c (.error (.missingBlocks ids))) : ids ≠ [] := by
  obtain ⟨n, hn⟩ := h
  have hload := hn n (Nat.le_refl n)
  simp only [loadBodyRef, id_bind] at hload
  split at hload
  · cases hload
  · rename_i ids' hobj
    cases hload
    exact Object.loadView_missingBlocks_ne_nil hobj
  · cases hload
  · split at hload
    · cases hload
    · cases hload
    · cases hload
    · cases hload

/-! ## The walk -/

section Walk

variable {load : ObjectRef → Option (Except CommitLoadError Commit)}
  {body : Commit → Option (Except CommitLoadError CommitBody)}
  {branch : Commit → Walk → Option (Except CommitLoadError Walk)}
  (hfuel : Fueled P v load body) (hno : OnlyMissing P v commit)

include hfuel hno

/-- The loop over the dependencies settles them, if the walk over one commit marks it. -/
theorem loadDeps_spec {I : Walk → Prop} (hI : ∀ w w', Extends P v commit w w' → I w → I w')
    (hbranch : ∀ c w, Relevant P v commit c → c.id?.isSome → Sound P v commit w → I w →
      ∃ w', branch c w = some (.ok w') ∧ Sound P v commit w' ∧ Extends P v commit w w' ∧
        ∀ x, c.id? = some x → x ∈ w'.visited)
    (hc : Relevant P v commit c) (hroot : ¬ IsRoot P v c) {deps : List ObjectRef}
    (hdeps : ∀ r ∈ deps, r ∈ c.depsAcks) (hw : Sound P v commit w) (hIw : I w) :
    ∃ w', loadDeps (m := Id) load branch deps w = some (.ok w') ∧ Sound P v commit w' ∧
      Extends P v commit w w' ∧ ∀ r ∈ deps, SettledRef P v w' r := by
  induction deps generalizing w with
  | nil => exact ⟨w, rfl, hw, .refl w, fun r hr => absurd hr List.not_mem_nil⟩
  | cons r deps ih =>
    have hr : r ∈ c.depsAcks := hdeps r List.mem_cons_self
    have ih := fun {w} => ih (w := w) fun r hr => hdeps r (List.mem_cons_of_mem _ hr)
    simp only [loadDeps, id_bind]
    obtain ⟨c', hload⟩ | ⟨ids, hload⟩ := hno.loads r ⟨c, hc, hroot, hr⟩
    · obtain ⟨w₁, hrun, hw₁, hext, hmark⟩ := hbranch c' w (.dep hc hroot hr hload)
        (by rw [hload.id_eq]; rfl) hw hIw
      obtain ⟨w₂, hrest, hw₂, hext', hsettled⟩ := ih hw₁ (hI w w₁ hext hIw)
      rw [hfuel.load_eq r _ hload]
      dsimp only
      rw [tryBind_ok hrun, hrest]
      refine ⟨w₂, rfl, hw₂, hext.trans hext', fun q hq => ?_⟩
      obtain rfl | hq := List.mem_cons.mp hq
      · refine ⟨fun ids hids => ?_, fun c'' hc'' => ?_⟩
        · cases hload.unique hids
        · exact hext'.visited (hmark q.id hload.id_eq)
      · exact hsettled q hq
    · have hids : ∀ x ∈ ids, x ∈ missingIds P v commit := fun x hx =>
        .inl ⟨r, ids, ⟨c, hc, hroot, hr⟩, hload, hx⟩
      have hext : Extends P v commit w { w with missing := w.missing ∪ ids.toFinset } :=
        .addMissing w ids
      obtain ⟨w₂, hrest, hw₂, hext', hsettled⟩ := ih (hw.addMissing hids) (hI _ _ hext hIw)
      rw [hfuel.load_eq r _ hload]
      refine ⟨w₂, hrest, hw₂, hext.trans hext', fun q hq => ?_⟩
      obtain rfl | hq := List.mem_cons.mp hq
      · refine ⟨fun ids' hids' x hx => ?_, fun c' hc' => ?_⟩
        · cases hload.unique hids'
          exact hext'.missing (Finset.mem_union_right _ (List.mem_toFinset.mpr hx))
        · cases hload.unique hc'
      · exact hsettled q hq

/-- A commit that is marked is settled. -/
theorem loadMarked_spec {I : Walk → Prop} (hI : ∀ w w', Extends P v commit w w' → I w → I w')
    (hbranch : ∀ c w, Relevant P v commit c → c.id?.isSome → Sound P v commit w → I w →
      ∃ w', branch c w = some (.ok w') ∧ Sound P v commit w' ∧ Extends P v commit w w' ∧
        ∀ x, c.id? = some x → x ∈ w'.visited)
    (hc : Relevant P v commit c) (hw : Sound P v commit w) (hIw : I w) :
    ∃ w', loadMarked (m := Id) load body branch c w = some (.ok w') ∧ Sound P v commit w' ∧
      Extends P v commit w w' ∧ Settled P v w' c := by
  simp only [loadMarked, id_bind]
  obtain ⟨b, hbody⟩ | ⟨ids, hbody⟩ := hno.bodies c hc
  · have hnone : ∀ (w' : Walk) ids, LoadsBody P v c (.error (.missingBlocks ids)) →
      ∀ x ∈ ids, x ∈ w'.missing := by
      intro w' ids hids
      cases hbody.unique hids
    rw [hfuel.body_eq c _ hbody]
    dsimp only
    by_cases hb : b.toType = .branch
    · have hroot : IsRoot P v c := ⟨b, hbody, hb⟩
      rw [if_neg (by simpa using hb)]
      exact ⟨w, rfl, hw, .refl w, hnone w, fun hnot => absurd hroot hnot⟩
    · have hroot : ¬ IsRoot P v c := by
        rintro ⟨b', hb', hbranch⟩
        cases hbody.unique hb'
        exact hb hbranch
      rw [if_pos (by simpa using hb)]
      obtain ⟨w', hrun, hw', hext, hsettled⟩ :=
        loadDeps_spec hfuel hno hI hbranch hc hroot (fun r hr => hr) hw hIw
      exact ⟨w', hrun, hw', hext, hnone w', fun _ => hsettled⟩
  · have hroot : ¬ IsRoot P v c := by
      rintro ⟨b, hb, -⟩
      cases hbody.unique hb
    have hids : ∀ x ∈ ids, x ∈ missingIds P v commit := fun x hx => .inr ⟨c, ids, hc, hbody, hx⟩
    have hext : Extends P v commit w { w with missing := w.missing ∪ ids.toFinset } :=
      .addMissing w ids
    rw [hfuel.body_eq c _ hbody]
    obtain ⟨w', hrun, hw', hext', hsettled⟩ := loadDeps_spec hfuel hno hI hbranch hc hroot
      (fun r hr => hr) (hw.addMissing hids) (hI _ _ hext hIw)
    refine ⟨w', hrun, hw', hext.trans hext', fun ids' hids' x hx => ?_, fun _ => hsettled⟩
    cases hbody.unique hids'
    exact hext'.missing (Finset.mem_union_right _ (List.mem_toFinset.mpr hx))

/-- A walk marks its commit and settles what it marks. The bound is on the ids that are not marked
yet. -/
theorem loadBranch_spec (hone : NamesOne P v commit) {V : Finset ObjectId}
    (hV : ∀ x, x ∈ V) (fuel : Nat) :
    ∀ c w, Relevant P v commit c → c.id?.isSome → Sound P v commit w → (V \ w.visited).card < fuel →
      ∃ w', loadBranch (m := Id) load body fuel c w = some (.ok w') ∧ Sound P v commit w' ∧
        Extends P v commit w w' ∧ ∀ x, c.id? = some x → x ∈ w'.visited := by
  induction fuel with
  | zero =>
    intro c w _ _ _ hcard
    omega
  | succ fuel ih =>
    intro c w hc hsome hw hcard
    obtain ⟨x, hx⟩ := Option.isSome_iff_exists.mp hsome
    simp only [loadBranch, hx]
    split
    · rename_i hmem
      refine ⟨w, rfl, hw, .refl w, fun y hy => ?_⟩
      cases hy
      exact hmem
    · rename_i hnew
      have hmarked : Sound P v commit { w with visited := insert x w.visited } := by
        refine ⟨fun y hy => ?_, hw.missing⟩
        obtain rfl | hy := Finset.mem_insert.mp hy
        · exact ⟨c, hc, hx⟩
        · exact hw.visited y hy
      have hless : (V \ insert x w.visited).card < fuel := by
        have hlt : (V \ insert x w.visited).card < (V \ w.visited).card := by
          apply Finset.card_lt_card
          rw [Finset.ssubset_iff_of_subset
            (Finset.sdiff_subset_sdiff subset_rfl (Finset.subset_insert x w.visited))]
          exact ⟨x, Finset.mem_sdiff.mpr ⟨hV x, hnew⟩, by simp⟩
        omega
      obtain ⟨w', hrun, hw', hext, hsettled⟩ := loadMarked_spec hfuel hno
        (I := fun w => (V \ w.visited).card < fuel) (fun w₁ w₂ h₁₂ hlt =>
          (Finset.card_le_card (Finset.sdiff_subset_sdiff subset_rfl h₁₂.visited)).trans_lt hlt)
        ih hc hmarked hless
      have hsub : w.visited ⊆ w'.visited := (Finset.subset_insert x w.visited).trans hext.visited
      refine ⟨w', hrun, hw', ⟨hsub, hext.missing, fun c' hc' y hy hmem hnot => ?_⟩, fun y hy => ?_⟩
      · by_cases hyx : y = x
        · rw [hyx] at hy
          exact hsettled.congr (hone c c' hc hc' hsome (hx.trans hy.symm))
        · refine hext.settled c' hc' y hy hmem ?_
          rw [Finset.mem_insert, not_or]
          exact ⟨hyx, hnot⟩
      · cases hy
        exact hext.visited (Finset.mem_insert_self x w.visited)

/-- The walk from the given commit settles all relevant commits. -/
theorem loadBranch_all (hone : NamesOne P v commit) {V : Finset ObjectId}
    (hV : ∀ x, x ∈ V) {fuel : Nat}
    (hcard : V.card + 1 < fuel) :
    ∃ w, loadBranch (m := Id) load body fuel commit ⟨∅, ∅⟩ = some (.ok w) ∧
      (∀ x, x ∈ w.visited ↔ ∃ c, Relevant P v commit c ∧ c.id? = some x) ∧
      ∀ x, x ∈ w.missing ↔ x ∈ missingIds P v commit := by
  have hempty : Sound P v commit ⟨∅, ∅⟩ := ⟨by simp, by simp⟩
  -- the first commit, with an id or without
  have hwalk : ∃ w, loadBranch (m := Id) load body fuel commit ⟨∅, ∅⟩ = some (.ok w) ∧
      Sound P v commit w ∧ Extends P v commit ⟨∅, ∅⟩ w ∧
      (∀ x, commit.id? = some x → x ∈ w.visited) ∧
      Settled P v w commit := by
    cases hid : commit.id? with
    | none =>
      obtain ⟨fuel, rfl⟩ : ∃ k, fuel = k + 1 := ⟨fuel - 1, by omega⟩
      obtain ⟨w, hrun, hw, hext, hsettled⟩ := loadMarked_spec hfuel hno
        (I := fun w => (V \ w.visited).card < fuel) (fun w₁ w₂ h₁₂ hlt =>
          (Finset.card_le_card (Finset.sdiff_subset_sdiff subset_rfl h₁₂.visited)).trans_lt hlt)
        (loadBranch_spec hfuel hno hone hV fuel) .self hempty (by simp; omega)
      refine ⟨w, ?_, hw, hext, nofun, hsettled⟩
      simp only [loadBranch, hid]
      exact hrun
    | some x =>
      obtain ⟨w, hrun, hw, hext, hmark⟩ :=
        loadBranch_spec hfuel hno hone hV fuel commit ⟨∅, ∅⟩ .self
        (by rw [hid]; rfl) hempty (by simp; omega)
      rw [hid] at hmark
      exact ⟨w, hrun, hw, hext, hmark,
        hext.settled commit .self x hid (hmark x rfl) (Finset.notMem_empty x)⟩
  obtain ⟨w, hrun, hw, hext, hmark, hstart⟩ := hwalk
  have hall : ∀ c, Relevant P v commit c → Settled P v w c ∧ ∀ x,
      c.id? = some x → x ∈ w.visited := by
    intro c hc
    induction hc with
    | self => exact ⟨hstart, hmark⟩
    | @dep c c' r hc hroot hr hload ih =>
      have hmem : r.id ∈ w.visited := (ih.1.deps hroot r hr).visited c' hload
      have hid : c'.id? = some r.id := hload.id_eq
      refine ⟨hext.settled c' (.dep hc hroot hr hload) r.id hid hmem (Finset.notMem_empty _), ?_⟩
      intro x hx
      rw [hid] at hx
      cases hx
      exact hmem
  refine ⟨w, hrun, fun x => ⟨hw.visited x, ?_⟩, fun x => ⟨hw.missing x, ?_⟩⟩
  · rintro ⟨c, hc, hx⟩
    exact (hall c hc).2 x hx
  · rintro (⟨r, ids, ⟨c, hc, hroot, hr⟩, hload, hx⟩ | ⟨c, ids, hc, hbody, hx⟩)
    · exact ((hall c hc).1.deps hroot r hr).missing ids hload x hx
    · exact (hall c hc).1.body ids hbody x hx

end Walk

/-! ## A complete ancestry

If nothing is missing, it does not matter whether an id names one commit only. -/

section Complete

variable {load : ObjectRef → Option (Except CommitLoadError Commit)}
  {body : Commit → Option (Except CommitLoadError CommitBody)}
  {branch : Commit → Walk → Option (Except CommitLoadError Walk)} {V : Finset ObjectId}
  (hfuel : Fueled P v load body) (h : Complete P v commit)

/-- Nothing is missing, and no more commits are to be marked than before. -/
structure Clean (w w' : Walk) : Prop where
  visited : w.visited ⊆ w'.visited
  missing : w'.missing = w.missing

theorem Clean.trans (h : Clean w w') (h' : Clean w' w'') : Clean w w'' :=
  ⟨h.visited.trans h'.visited, h'.missing.trans h.missing⟩

theorem Clean.card_lt (h : Clean w w') {n : Nat} (hcard : (V \ w.visited).card < n) :
    (V \ w'.visited).card < n :=
  (Finset.card_le_card (Finset.sdiff_subset_sdiff subset_rfl h.visited)).trans_lt hcard

include hfuel h

theorem loadDeps_complete {n : Nat}
    (hbranch : ∀ c w, Relevant P v commit c → c.id?.isSome → (V \ w.visited).card < n →
      ∃ w', branch c w = some (.ok w') ∧ Clean w w')
    (hc : Relevant P v commit c) (hroot : ¬ IsRoot P v c) {deps : List ObjectRef}
    (hdeps : ∀ r ∈ deps, r ∈ c.depsAcks) (hcard : (V \ w.visited).card < n) :
    ∃ w', loadDeps (m := Id) load branch deps w = some (.ok w') ∧ Clean w w' := by
  induction deps generalizing w with
  | nil => exact ⟨w, rfl, subset_rfl, rfl⟩
  | cons r deps ih =>
    have hr : r ∈ c.depsAcks := hdeps r List.mem_cons_self
    obtain ⟨c', hload⟩ := h.1 r ⟨c, hc, hroot, hr⟩
    obtain ⟨w₁, hrun, hclean⟩ := hbranch c' w (.dep hc hroot hr hload) (by simp [hload.id_eq]) hcard
    obtain ⟨w₂, hrest, hclean'⟩ :=
      ih (fun r hr => hdeps r (List.mem_cons_of_mem _ hr)) (hclean.card_lt hcard)
    simp only [loadDeps, id_bind, hfuel.load_eq r _ hload]
    rw [tryBind_ok hrun, hrest]
    exact ⟨w₂, rfl, hclean.trans hclean'⟩

theorem loadMarked_complete {n : Nat}
    (hbranch : ∀ c w, Relevant P v commit c → c.id?.isSome → (V \ w.visited).card < n →
      ∃ w', branch c w = some (.ok w') ∧ Clean w w')
    (hc : Relevant P v commit c) (hcard : (V \ w.visited).card < n) :
    ∃ w', loadMarked (m := Id) load body branch c w = some (.ok w') ∧ Clean w w' := by
  obtain ⟨b, hbody⟩ := h.2 c hc
  simp only [loadMarked, id_bind, hfuel.body_eq c _ hbody]
  by_cases hb : b.toType = .branch
  · rw [if_neg (by simpa using hb)]
    exact ⟨w, rfl, subset_rfl, rfl⟩
  · have hroot : ¬ IsRoot P v c := by
      rintro ⟨b', hb', hbranch⟩
      cases hbody.unique hb'
      exact hb hbranch
    rw [if_pos (by simpa using hb)]
    exact loadDeps_complete hfuel h hbranch hc hroot (fun r hr => hr) hcard

/-- The walk over a complete ancestry has no error, with a bound on the ids that are not marked. -/
theorem loadBranch_complete (hV : ∀ x, x ∈ V) (fuel : Nat) :
    ∀ c w, Relevant P v commit c → c.id?.isSome → (V \ w.visited).card < fuel →
      ∃ w', loadBranch (m := Id) load body fuel c w = some (.ok w') ∧ Clean w w' := by
  induction fuel with
  | zero =>
    intro c w _ _ hcard
    omega
  | succ fuel ih =>
    intro c w hc hsome hcard
    obtain ⟨x, hx⟩ := Option.isSome_iff_exists.mp hsome
    simp only [loadBranch, hx]
    split
    · exact ⟨w, rfl, subset_rfl, rfl⟩
    · rename_i hnew
      have hlt : (V \ insert x w.visited).card < (V \ w.visited).card := by
        apply Finset.card_lt_card
        rw [Finset.ssubset_iff_of_subset
          (Finset.sdiff_subset_sdiff subset_rfl (Finset.subset_insert x w.visited))]
        exact ⟨x, Finset.mem_sdiff.mpr ⟨hV x, hnew⟩, by simp⟩
      obtain ⟨w', hrun, hclean⟩ := loadMarked_complete hfuel h ih hc
        (w := { w with visited := insert x w.visited }) (by dsimp only; omega)
      exact ⟨w', hrun, (Finset.subset_insert x w.visited).trans hclean.visited, hclean.missing⟩

/-- So has the walk from the given commit, with an id or without. -/
theorem loadBranch_start_complete (hV : ∀ x, x ∈ V) {fuel : Nat} (hcard : V.card + 1 < fuel) :
    ∃ w, loadBranch (m := Id) load body fuel commit ⟨∅, ∅⟩ = some (.ok w) ∧ w.missing = ∅ := by
  cases hid : commit.id? with
  | none =>
    obtain ⟨fuel, rfl⟩ : ∃ k, fuel = k + 1 := ⟨fuel - 1, by omega⟩
    obtain ⟨w, hrun, hclean⟩ := loadMarked_complete hfuel h
      (loadBranch_complete hfuel h hV fuel) .self (w := ⟨∅, ∅⟩) (by simp; omega)
    refine ⟨w, ?_, hclean.missing⟩
    simp only [loadBranch, hid]
    exact hrun
  | some x =>
    obtain ⟨w, hrun, hclean⟩ := loadBranch_complete hfuel h hV fuel commit ⟨∅, ∅⟩ .self
      (by rw [hid]; rfl) (by simp; omega)
    exact ⟨w, hrun, hclean.missing⟩

end Complete

/-! ## The result -/

/-- `verify_deps` on the store in state `s` returns `res`. -/
def VerifiesTo {σ : Type} (P : Primitives) (S : RepoStore σ) (order : HashOrder ObjectId) (s : σ)
    (commit : Commit) (res : Except CommitLoadError (List ObjectId)) : Prop :=
  ∃ n, ∀ fuel, n ≤ fuel → ∃ s', verifyDeps P order S.get fuel commit s = .ok (some res) s'

/-- The blocks of an incomplete ancestry. -/
theorem missingIds_nonempty_iff (hno : OnlyMissing P v commit) :
    (missingIds P v commit).Nonempty ↔ ¬ Complete P v commit := by
  constructor
  · rintro ⟨x, ⟨r, ids, hr, hload, -⟩ | ⟨c, ids, hc, hbody, -⟩⟩ ⟨hrefs, hbodies⟩
    · obtain ⟨c, hc⟩ := hrefs r hr
      cases hload.unique hc
    · obtain ⟨b, hb⟩ := hbodies c hc
      cases hbody.unique hb
  · intro hnot
    by_contra hempty
    refine hnot ⟨fun r hr => (hno.loads r hr).resolve_right ?_,
      fun c hc => (hno.bodies c hc).resolve_right ?_⟩
    · rintro ⟨ids, hids⟩
      obtain ⟨x, hx⟩ := List.exists_mem_of_ne_nil ids hids.missing_ne_nil
      exact hempty ⟨x, .inl ⟨r, ids, hr, hids, hx⟩⟩
    · rintro ⟨ids, hids⟩
      obtain ⟨x, hx⟩ := List.exists_mem_of_ne_nil ids hids.missing_ne_nil
      exact hempty ⟨x, .inr ⟨c, ids, hc, hids, hx⟩⟩

/-- The loads of one bound are those of the functions. -/
theorem exists_fueled (P : Primitives) (v : Object.View) :
    ∃ n, ∀ fuel, n ≤ fuel → Fueled P v (load (m := Id) P v fuel) (loadBody (m := Id) P v fuel) := by
  obtain ⟨n, hn⟩ := exists_fuel_finite fun r fuel => load (m := Id) P v fuel r
  obtain ⟨k, hk⟩ := exists_fuel_finite fun r fuel => loadBodyRef (m := Id) P v fuel r
  exact ⟨max n k, fun fuel hle => ⟨fun r res => hn fuel (by omega) r res,
    fun c res => hk fuel (by omega) c.content.body res⟩⟩

/-- `verify_deps` succeeds on a complete ancestry. -/
theorem verifyDeps_complete {fuel : Nat} {V : Finset ObjectId} (hV : ∀ x, x ∈ V)
    (hfuel : Fueled P v (load (m := Id) P v fuel) (loadBody (m := Id) P v fuel))
    (hcard : V.card + 1 < fuel) (order : HashOrder ObjectId) (h : Complete P v commit) :
    ∃ ids, verifyDeps (m := Id) P order v fuel commit = some (.ok ids) := by
  obtain ⟨w, hrun, hmissing⟩ := loadBranch_start_complete hfuel h hV hcard
  refine ⟨order.toList w.visited, ?_⟩
  rw [verifyDeps, tryBind_ok hrun, if_neg (by simp [hmissing])]
  rfl

/-- The walk over the relevant commits is what `verify_deps` reports. -/
theorem exists_verifiesTo {σ : Type} {D : Set BlockBody} {S : RepoStore σ}
    (hS : S.Lawful P D) {s : σ}
    (hs : hS.Inv s) (order : HashOrder ObjectId) {commit : Commit}
    (hno : OnlyMissing P (hS.view s) commit) (hone : NamesOne P (hS.view s) commit) :
    ∃ w : Walk, (∀ x, x ∈ w.visited ↔ ∃ c, Relevant P (hS.view s) commit c ∧ c.id? = some x) ∧
      (∀ x, x ∈ w.missing ↔ x ∈ missingIds P (hS.view s) commit) ∧
      VerifiesTo P S order s commit (if w.missing.Nonempty then
        .error (.missingBlocks (order.toList w.missing)) else .ok (order.toList w.visited)) := by
  obtain ⟨V, hV⟩ : ∃ V : Finset ObjectId, ∀ x, x ∈ V :=
    ⟨(Set.toFinite Set.univ).toFinset, by simp⟩
  obtain ⟨n, hn⟩ := exists_fueled P (hS.view s)
  have hwalk := fun fuel (hle : max n (V.card + 2) ≤ fuel) =>
    @loadBranch_all P _ _ _ _ (hn fuel (by omega)) hno hone _ hV fuel (by omega)
  obtain ⟨w, -, hvisited, hmissing⟩ := hwalk _ (Nat.le_refl _)
  refine ⟨w, hvisited, hmissing, max n (V.card + 2), fun fuel hle => ?_⟩
  -- the walk is the same for every bound
  obtain ⟨w', hrun, hvisited', hmissing'⟩ := hwalk fuel hle
  obtain rfl : w' = w := by
    obtain ⟨visited, missing⟩ := w
    obtain ⟨visited', missing'⟩ := w'
    congr 1
    · exact Finset.ext fun x => (hvisited' x).trans (hvisited x).symm
    · exact Finset.ext fun x => (hmissing' x).trans (hmissing x).symm
  obtain ⟨s', hrun', -⟩ := (verifyDeps_reads hS (hS.view s) order fuel commit).run s hs rfl
  refine ⟨s', hrun'.trans ?_⟩
  rw [verifyDeps, tryBind_ok hrun]
  split <;> rfl

/-- `verify_deps` explores exactly the ancestry of the commit: it returns the ids of the relevant
commits if all of them and their bodies load, and else the blocks that they miss. -/
theorem verifyDeps_exact {σ : Type} {D : Set BlockBody} {S : RepoStore σ}
    (hS : S.Lawful P D) {s : σ}
    (hs : hS.Inv s) (order : HashOrder ObjectId) {commit : Commit}
    (hno : OnlyMissing P (hS.view s) commit) (hone : NamesOne P (hS.view s) commit) :
    ((∃ ids, VerifiesTo P S order s commit (.ok ids)) ↔ Complete P (hS.view s) commit) ∧
    (∀ ids, VerifiesTo P S order s commit (.ok ids) → ids.Nodup ∧ ∀ x, x ∈ ids ↔
      commit.id? = some x ∨ ∃ r, RelevantRef P (hS.view s) commit r ∧ r.id = x) ∧
    (¬ Complete P (hS.view s) commit → ∃ ids,
      VerifiesTo P S order s commit (.error (.missingBlocks ids)) ∧
      {x | x ∈ ids} = missingIds P (hS.view s) commit) := by
  obtain ⟨w, hvisited, hmissing, hverify⟩ := exists_verifiesTo hS hs order hno hone
  have hne : w.missing.Nonempty ↔ ¬ Complete P (hS.view s) commit := by
    rw [← missingIds_nonempty_iff hno]
    exact exists_congr hmissing
  have hunique : ∀ {res}, VerifiesTo P S order s commit res → res = if w.missing.Nonempty then
      .error (.missingBlocks (order.toList w.missing)) else .ok (order.toList w.visited) := by
    intro res hres
    obtain ⟨n, hn⟩ := hres
    obtain ⟨k, hk⟩ := hverify
    obtain ⟨s₁, h₁⟩ := hn (max n k) (Nat.le_max_left n k)
    obtain ⟨s₂, h₂⟩ := hk (max n k) (Nat.le_max_right n k)
    rw [h₁, EStateM.Result.ok.injEq, Option.some.injEq] at h₂
    exact h₂.1
  refine ⟨⟨fun h => ?_, fun h => ?_⟩, fun ids h => ?_, fun h => ?_⟩
  · obtain ⟨ids, hids⟩ := h
    by_contra hnot
    have hres := hunique hids
    rw [if_pos (hne.mpr hnot)] at hres
    cases hres
  · rw [if_neg fun hw => hne.mp hw h] at hverify
    exact ⟨_, hverify⟩
  · have hres := hunique h
    split at hres
    · cases hres
    · rename_i hempty
      cases hres
      have hcomplete : Complete P (hS.view s) commit := by
        by_contra hnot
        exact hempty (hne.mpr hnot)
      refine ⟨order.nodup _, fun x => ?_⟩
      rw [order.mem, hvisited]
      constructor
      · rintro ⟨c, hc, hx⟩
        cases hc with
        | self => exact .inl hx
        | @dep c _ r hc hroot hr hload =>
          rw [hload.id_eq, Option.some.injEq] at hx
          exact .inr ⟨r, ⟨c, hc, hroot, hr⟩, hx⟩
      · rintro (hx | ⟨r, hr, rfl⟩)
        · exact ⟨commit, .self, hx⟩
        · obtain ⟨c', hload⟩ := hcomplete.1 r hr
          obtain ⟨c, hc, hroot, hr⟩ := hr
          exact ⟨c', .dep hc hroot hr hload, hload.id_eq⟩
  · rw [if_pos (hne.mpr h)] at hverify
    refine ⟨_, hverify, Set.ext fun x => ?_⟩
    show x ∈ order.toList w.missing ↔ _
    rw [order.mem, hmissing]

/-- From an empty store nothing loads. -/
theorem loads_new (r : ObjectRef) :
    Loads P HashMapRepoStore.new.view r (.error (.missingBlocks [r.id])) := by
  refine ⟨1, fun fuel hle => ?_⟩
  obtain ⟨fuel, rfl⟩ : ∃ k, fuel = k + 1 := ⟨fuel - 1, by omega⟩
  simp [load, Object.load, Object.loadTree, Object.loadLevel, id_bind]
  rfl

theorem loadsBody_new (c : Commit) :
    LoadsBody P HashMapRepoStore.new.view c (.error (.missingBlocks [c.content.body.id])) := by
  refine ⟨1, fun fuel hle => ?_⟩
  obtain ⟨fuel, rfl⟩ : ∃ k, fuel = k + 1 := ⟨fuel - 1, by omega⟩
  simp [loadBodyRef, Object.load, Object.loadTree, Object.loadLevel, id_bind]
  rfl

/-- A commit with one dependency, which is not in the store, and nor is its body. -/
theorem verifyDeps_exact_new :
    let ref : ObjectRef := ⟨⟨.replicate 32 1⟩, ⟨.replicate 32 2⟩⟩
    let commit : Commit :=
      ⟨none, none, ⟨⟨.replicate 32 3⟩, 3, ref, [ref], [ref], [ref], [1, 2, 3], ref, some 2342⟩,
      ⟨(.replicate 32 0, .replicate 32 0)⟩⟩
    ∃ ids, VerifiesTo (reference fun _ _ => false)
      (HashMapRepoStore.repoStore (reference fun _ _ => false) 0)
      HashOrder.ascending HashMapRepoStore.new
      commit (.error (.missingBlocks ids)) ∧ ⟨.replicate 32 1⟩ ∈ ids := by
  intro ref commit
  let P := reference fun _ _ => false
  have hself : ∀ c, Relevant P HashMapRepoStore.new.view commit c → c = commit := by
    intro c hc
    cases hc with
    | self => rfl
    | dep _ _ _ hload => cases hload.unique (loads_new _)
  have hno : OnlyMissing P HashMapRepoStore.new.view commit :=
    ⟨fun r _ => .inr ⟨_, loads_new r⟩, fun c _ => .inr ⟨_, loadsBody_new c⟩⟩
  have hone : NamesOne P HashMapRepoStore.new.view commit := by
    intro c c' hc hc' _ _
    rw [hself c hc, hself c' hc']
  have hmissing : ⟨.replicate 32 1⟩ ∈ missingIds P HashMapRepoStore.new.view commit :=
    .inr ⟨commit, _, .self, loadsBody_new commit, List.mem_singleton_self _⟩
  obtain ⟨ids, hverify, hids⟩ :=
    (verifyDeps_exact (HashMapRepoStore.lawful P ∅ 0) (s := .new) trivial
    HashOrder.ascending hno hone).2.2 ((missingIds_nonempty_iff hno).mp ⟨_, hmissing⟩)
  exact ⟨ids, hverify, hids.symm.subset hmissing⟩

end Commit

end Lofire
