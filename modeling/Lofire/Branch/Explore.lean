import Lofire.Branch
import Lofire.Lib.Dfs

/-!
# What a synchronisation explores

Over the commits that load from the store, `load_branch` is a depth-first exploration that stops at
`their_heads` and at the commits without dependencies, and passes over the dependencies that the
store does not hold (`loadBranch_explore`). So `sync_req` returns the difference of two such
explorations (`HeldCommits.syncReq_spec`), if it can load all the heads.
-/

namespace Lofire

open Lib

namespace Branch

variable {P : Primitives} {v : Object.View}

/-- Loading the commit reports missing blocks. -/
def Missing (P : Primitives) (v : Object.View) (c : ObjectId) : Prop :=
  ∃ ids, Returns (Object.loadView P v c none) (.error (.missingBlocks ids))

/-- Commits that a store holds. It may not hold all their dependencies. -/
structure HeldCommits (P : Primitives) (v : Object.View) where
  commits : Finset ObjectId
  deps : ObjectId → List ObjectId
  loads : ∀ c ∈ commits, ∃ o, Returns (Object.loadView P v c none) (.ok o) ∧
    o.id P = some c ∧ o.deps = deps c
  known : ∀ c ∈ commits, ∀ d ∈ deps c, d ∈ commits ∨ Missing P v d

namespace HeldCommits

variable (H : HeldCommits P v)

/-- The dependencies that the store holds. -/
def succ (c : ObjectId) : List ObjectId := (H.deps c).filter fun d => decide (d ∈ H.commits)

/-- Where `load_branch` stops. -/
def stop (theirHeads : List ObjectId) (c : ObjectId) : Bool :=
  (H.deps c).isEmpty || decide (c ∈ theirHeads)

theorem succ_closed (c : ObjectId) : ∀ d ∈ H.succ c, d ∈ H.commits := by
  intro d hd
  exact of_decide_eq_true (List.mem_filter.mp hd).2

/-- One bound is enough for any finite set of loads. -/
theorem exists_fuel (s : Finset ObjectId)
    (hs : ∀ c ∈ s, ∃ r, Returns (Object.loadView P v c none) r) :
    ∃ n, ∀ fuel, n ≤ fuel → ∀ c ∈ s, ∀ r, Returns (Object.loadView P v c none) r →
      Object.loadView P v c none fuel = some r := by
  induction s using Finset.induction with
  | empty => exact ⟨0, fun _ _ c hc => absurd hc (Finset.notMem_empty c)⟩
  | insert a s _ ih =>
    obtain ⟨n, hn⟩ := ih fun c hc => hs c (Finset.mem_insert_of_mem hc)
    obtain ⟨r, m, hm⟩ := hs a (Finset.mem_insert_self a s)
    refine ⟨max n m, fun fuel hfuel c hc r' hr' => ?_⟩
    obtain rfl | hc := Finset.mem_insert.mp hc
    · rw [Returns.unique hr' ⟨m, hm⟩]
      exact hm fuel (by omega)
    · exact hn fuel (by omega) c hc r' hr'

/-- `load` loads the commits, and reports missing blocks for the dependencies that are not held. -/
structure LoadsWith (load : ObjectId → Option (Except ObjectParseError Object)) : Prop where
  held : ∀ c ∈ H.commits, ∃ o, load c = some (.ok o) ∧ o.id P = some c ∧ o.deps = H.deps c
  missing : ∀ c ∈ H.commits, ∀ d ∈ H.deps c, d ∉ H.commits →
    ∃ ids, load d = some (.error (.missingBlocks ids))

/-- The commits, their dependencies and the ids `l` are loaded with one bound. -/
theorem exists_loadsWith (l : List ObjectId) (hl : ∀ c ∈ l, c ∈ H.commits ∨ Missing P v c) :
    ∃ n, ∀ fuel, n ≤ fuel →
      H.LoadsWith (fun c => Object.loadView P v c none fuel) ∧
      ∀ c ∈ l, c ∉ H.commits →
        ∃ ids, Object.loadView P v c none fuel = some (.error (.missingBlocks ids)) := by
  have hknown : ∀ c, c ∈ H.commits ∨ Missing P v c → ∃ r,
      Returns (Object.loadView P v c none) r := by
    rintro c (hc | ⟨ids, hc⟩)
    · obtain ⟨o, ho, -⟩ := H.loads c hc
      exact ⟨_, ho⟩
    · exact ⟨_, hc⟩
  have hall : ∀ c ∈ H.commits ∪ (H.commits.biUnion (fun c => (H.deps c).toFinset) ∪ l.toFinset),
      c ∈ H.commits ∨ Missing P v c := by
    intro c hc
    rw [Finset.mem_union, Finset.mem_union, Finset.mem_biUnion, List.mem_toFinset] at hc
    obtain hc | ⟨b, hb, hc⟩ | hc := hc
    · exact .inl hc
    · exact H.known b hb c (List.mem_toFinset.mp hc)
    · exact hl c hc
  obtain ⟨n, hn⟩ := exists_fuel _ fun c hc => hknown c (hall c hc)
  have hmissing : ∀ fuel, n ≤ fuel → ∀ d, d ∈ H.commits ∪ (H.commits.biUnion
      (fun c => (H.deps c).toFinset) ∪ l.toFinset) → d ∉ H.commits →
      ∃ ids, Object.loadView P v d none fuel = some (.error (.missingBlocks ids)) := by
    intro fuel hfuel d hd hnot
    obtain ⟨ids, hids⟩ := (hall d hd).resolve_left hnot
    exact ⟨ids, hn fuel hfuel d hd _ hids⟩
  refine ⟨n, fun fuel hfuel => ⟨⟨fun c hc => ?_, fun c hc d hd => ?_⟩, fun c hc => ?_⟩⟩
  · obtain ⟨o, ho, hid, hdeps⟩ := H.loads c hc
    exact ⟨o, hn fuel hfuel c (Finset.mem_union_left _ hc) _ ho, hid, hdeps⟩
  · refine hmissing fuel hfuel d (Finset.mem_union_right _ (Finset.mem_union_left _ ?_))
    exact Finset.mem_biUnion.mpr ⟨c, hc, List.mem_toFinset.mpr hd⟩
  · exact hmissing fuel hfuel c
      (Finset.mem_union_right _ (Finset.mem_union_right _ (List.mem_toFinset.mpr hc)))

end HeldCommits

variable {H : HeldCommits P v} {load : ObjectId → Option (Except ObjectParseError Object)}

/-! ## Exploration -/

/-- `load_branch` explores the commits that are held. -/
theorem loadBranch_explore (hload : H.LoadsWith load) (theirHeads : List ObjectId) (fuel : Nat) :
    ∀ {c : ObjectId} {o : Object} {visited seen : Finset ObjectId} (missing : Finset ObjectId),
      c ∈ H.commits → o.id P = some c → o.deps = H.deps c →
      Dfs.explore H.succ (H.stop theirHeads) fuel c visited = some seen →
      ∃ found missing', loadBranch (m := Id) P load theirHeads fuel o ⟨visited, missing⟩ =
        some (.ok (found, ⟨seen, missing'⟩)) := by
  induction fuel with
  | zero =>
    intro c o visited seen missing _ _ _ h
    cases h
  | succ fuel ih =>
    intro c o visited seen missing hc hid hdeps h
    rw [Dfs.explore] at h
    rw [loadBranch, hid]
    dsimp only
    by_cases hstop : H.stop theirHeads c = true
    · rw [if_pos hstop] at h
      cases h
      rw [if_neg (by rw [hdeps]; simpa [HeldCommits.stop, or_iff_not_imp_left] using hstop)]
      exact ⟨_, _, rfl⟩
    · rw [if_neg hstop] at h
      rw [if_pos (by rw [hdeps]; simpa [HeldCommits.stop] using hstop), hdeps]
      -- the loop over the dependencies is the fold over those that are held
      have hloop : ∀ (deps : List ObjectId) (found : Bool) (visited missing : Finset ObjectId),
          (∀ d ∈ deps, d ∈ H.deps c) →
          (deps.filter fun d => decide (d ∈ H.commits)).foldlM (fun visited b =>
            if b ∈ visited then some visited
            else Dfs.explore H.succ (H.stop theirHeads) fuel b visited) visited = some seen →
          ∃ found' missing', loadDeps (m := Id) load (loadBranch (m := Id) P load theirHeads fuel)
            deps found ⟨visited, missing⟩ = some (.ok (found', ⟨seen, missing'⟩)) := by
        intro deps
        induction deps with
        | nil =>
          intro found visited missing _ h
          cases h
          exact ⟨found, missing, rfl⟩
        | cons d deps ihl =>
          intro found visited missing hall h
          rw [List.forall_mem_cons] at hall
          by_cases hd : d ∈ H.commits
          · obtain ⟨od, hod, hidd, hdepsd⟩ := hload.held d hd
            rw [List.filter_cons, if_pos (decide_eq_true hd), List.foldlM_cons] at h
            simp only [loadDeps, id_bind, hod]
            by_cases hvisited : d ∈ visited
            · rw [if_pos hvisited] at h ⊢
              exact ihl found visited missing hall.2 h
            · rw [if_neg hvisited] at h ⊢
              obtain ⟨seen', hseen', h⟩ := Option.bind_eq_some_iff.mp h
              obtain ⟨found', missing', hfound'⟩ := ih missing hd hidd hdepsd hseen'
              rw [tryBind_ok hfound']
              exact ihl _ seen' missing' hall.2 h
          · obtain ⟨ids, hids⟩ := hload.missing c hc d hall.1 hd
            rw [List.filter_cons, if_neg (by simp [hd])] at h
            simp only [loadDeps, id_bind, hids]
            exact ihl found visited _ hall.2 h
      exact hloop _ _ _ _ (fun _ hd => hd) h

/-- The commits that are collected from a list of heads. -/
theorem loadHeads_spec {fuel : Nat} (hload : H.LoadsWith load) (hfuel : H.commits.card ≤ fuel)
    (theirHeads : List ObjectId) {heads : List ObjectId} (hheads : ∀ h ∈ heads, h ∈ H.commits)
    (collected missing : Finset ObjectId) :
    ∃ s missing', loadHeads (m := Id) P load theirHeads fuel heads collected missing =
        some (.ok (s, missing')) ∧
      ∀ c, c ∈ s ↔ c ∈ collected ∨ ∃ h ∈ heads, Dfs.Reach H.succ (H.stop theirHeads) h c := by
  induction heads generalizing collected missing with
  | nil => exact ⟨collected, missing, rfl, by simp⟩
  | cons h heads ih =>
    rw [List.forall_mem_cons] at hheads
    obtain ⟨o, ho, hid, hdeps⟩ := hload.held h hheads.1
    obtain ⟨seen, hseen, hmem⟩ : ∃ seen,
        Dfs.explore H.succ (H.stop theirHeads) fuel h ∅ = some seen ∧
          ∀ c, c ∈ seen ↔ Dfs.Reach H.succ (H.stop theirHeads) h c :=
      Dfs.explore_spec (fun c _ => H.succ_closed c) hheads.1 hfuel
    obtain ⟨found, missing₁, hfound⟩ :=
      loadBranch_explore hload theirHeads fuel missing hheads.1 hid hdeps hseen
    obtain ⟨s, missing', hs, hsmem⟩ := ih hheads.2 (collected ∪ seen) missing₁
    refine ⟨s, missing', ?_, fun c => ?_⟩
    · rw [loadHeads, tryBind_ok ho, tryBind_ok hfound]
      exact hs
    · rw [hsmem, Finset.mem_union, hmem, or_assoc]
      simp

/-- A head that is not held ends the loop over the heads. -/
theorem loadHeads_missing {fuel : Nat} (hload : H.LoadsWith load) (hfuel : H.commits.card ≤ fuel)
    (theirHeads : List ObjectId) {heads : List ObjectId}
    (hheads : ∀ h ∈ heads, h ∉ H.commits → ∃ ids, load h = some (.error (.missingBlocks ids)))
    (hnot : ∃ h ∈ heads, h ∉ H.commits) (collected missing : Finset ObjectId) :
    ∃ e, loadHeads (m := Id) P load theirHeads fuel heads collected missing = some (.error e) := by
  induction heads generalizing collected missing with
  | nil =>
    obtain ⟨h, hh, -⟩ := hnot
    cases hh
  | cons h heads ih =>
    rw [List.forall_mem_cons] at hheads
    by_cases hh : h ∈ H.commits
    · obtain ⟨o, ho, hid, hdeps⟩ := hload.held h hh
      obtain ⟨seen, hseen, -⟩ : ∃ seen,
          Dfs.explore H.succ (H.stop theirHeads) fuel h ∅ = some seen ∧
            ∀ c, c ∈ seen ↔ Dfs.Reach H.succ (H.stop theirHeads) h c :=
        Dfs.explore_spec (fun c _ => H.succ_closed c) hh hfuel
      obtain ⟨found, missing₁, hfound⟩ :=
        loadBranch_explore hload theirHeads fuel missing hh hid hdeps hseen
      have hrest : ∃ h' ∈ heads, h' ∉ H.commits := by
        obtain ⟨h', hh', hnot'⟩ := hnot
        obtain rfl | hh' := List.mem_cons.mp hh'
        · exact absurd hh hnot'
        · exact ⟨h', hh', hnot'⟩
      rw [loadHeads, tryBind_ok ho, tryBind_ok hfound]
      exact ih hheads.2 hrest _ _
    · obtain ⟨ids, hids⟩ := hheads.1 hh
      exact ⟨.missingBlocks ids, tryBind_error hids _⟩

/-! ## The request -/

/-- What a request selects: the commits explored from `ourHeads` up to `theirHeads`, except those
explored from `theirHeads` and those that the filter contains. -/
theorem HeldCommits.syncReq_spec (H : HeldCommits P v) (order : HashOrder ObjectId)
    {ourHeads theirHeads : List ObjectId} (hours : ∀ h ∈ ourHeads, h ∈ H.commits)
    (htheirs : ∀ h ∈ theirHeads, h ∈ H.commits) (theirFilter : BloomFilter) :
    ∃ ids, Returns (fun fuel => syncReq (m := Id) P order v fuel ourHeads theirHeads theirFilter)
        (.ok ids) ∧ ids.Nodup ∧
      ∀ c, c ∈ ids ↔ (∃ h ∈ ourHeads, Dfs.Reach H.succ (H.stop theirHeads) h c) ∧
        (¬ ∃ h ∈ theirHeads, Dfs.Reach H.succ (H.stop []) h c) ∧
          P.bloomContains theirFilter c.bytes = false := by
  obtain ⟨n, hn⟩ := H.exists_loadsWith [] (by simp)
  have hheads := fun fuel (hfuel : max n H.commits.card ≤ fuel) =>
    loadHeads_spec (hn fuel (by omega)).1 (show H.commits.card ≤ fuel by omega)
  obtain ⟨ours, -, -, hours'⟩ := hheads _ (Nat.le_refl _) theirHeads hours ∅ ∅
  obtain ⟨theirs, -, -, htheirs'⟩ := hheads _ (Nat.le_refl _) [] htheirs ∅ ∅
  refine ⟨toSend P order theirFilter ours theirs, ⟨max n H.commits.card, fun fuel hfuel => ?_⟩,
    order.nodup _, fun c => ?_⟩
  · obtain ⟨s, missing, hs, hsmem⟩ := hheads fuel hfuel theirHeads hours ∅ ∅
    obtain ⟨t, missing', ht, htmem⟩ := hheads fuel hfuel [] htheirs ∅ missing
    have hsours : s = ours := Finset.ext fun c => by rw [hsmem, hours']
    have httheirs : t = theirs := Finset.ext fun c => by rw [htmem, htheirs']
    subst hsours httheirs
    exact (tryBind_ok hs _).trans (tryBind_ok ht _)
  · rw [toSend, order.mem, Finset.mem_filter, Finset.mem_sdiff, hours', htheirs']
    simp [and_assoc]

/-- A head of the other side that the store does not hold fails the request. -/
theorem HeldCommits.syncReq_missing (H : HeldCommits P v) (order : HashOrder ObjectId)
    {ourHeads theirHeads : List ObjectId} (hours : ∀ h ∈ ourHeads, h ∈ H.commits)
    (htheirs : ∀ h ∈ theirHeads, h ∈ H.commits ∨ Missing P v h)
    (hnot : ∃ h ∈ theirHeads, h ∉ H.commits) (theirFilter : BloomFilter) :
    ∃ n, ∀ fuel, n ≤ fuel →
      ∃ e, syncReq (m := Id) P order v fuel ourHeads theirHeads theirFilter = some (.error e) := by
  obtain ⟨n, hn⟩ := H.exists_loadsWith theirHeads htheirs
  refine ⟨max n H.commits.card, fun fuel hfuel => ?_⟩
  obtain ⟨hload, hmissing⟩ := hn fuel (by omega)
  have hcard : H.commits.card ≤ fuel := by omega
  obtain ⟨s, missing, hs, -⟩ := loadHeads_spec hload hcard theirHeads hours ∅ ∅
  obtain ⟨e, he⟩ := loadHeads_missing hload hcard [] hmissing hnot ∅ missing
  exact ⟨e, (tryBind_ok hs _).trans (tryBind_error he _)⟩

/-! ## Requests to a store -/

/-- From the state `s` of the store, the request returns `ids`. -/
def SyncsTo {σ : Type} (P : Primitives) (S : RepoStore σ) (order : HashOrder ObjectId) (s : σ)
    (ourHeads theirHeads : List ObjectId) (theirFilter : BloomFilter)
    (ids : List ObjectId) : Prop :=
  ∃ n, ∀ fuel, n ≤ fuel →
    ∃ s', syncReq P order S.get fuel ourHeads theirHeads theirFilter s = .ok (some (.ok ids)) s'

theorem syncsTo_iff {σ : Type} {D : Set BlockBody} {S : RepoStore σ} (hS : S.Lawful P D) {s : σ}
    (hs : hS.Inv s) (order : HashOrder ObjectId) {ourHeads theirHeads : List ObjectId}
    {theirFilter : BloomFilter} {ids : List ObjectId} :
    SyncsTo P S order s ourHeads theirHeads theirFilter ids ↔
      Returns (fun fuel => syncReq (m := Id) P order (hS.view s) fuel ourHeads theirHeads
        theirFilter) (.ok ids) :=
  Object.returns_iff_of_reads hs fun fuel =>
    syncReq_reads hS (hS.view s) order fuel ourHeads theirHeads theirFilter

/-- A request that is answered has named heads only that the store holds. -/
theorem SyncsTo.heads_held {σ : Type} {D : Set BlockBody} {S : RepoStore σ}
    (hS : S.Lawful P D) {s : σ}
    (hs : hS.Inv s) {order : HashOrder ObjectId} (H : HeldCommits P (hS.view s))
    {ourHeads theirHeads : List ObjectId} (hours : ∀ h ∈ ourHeads, h ∈ H.commits)
    (htheirs : ∀ h ∈ theirHeads, h ∈ H.commits ∨ Missing P (hS.view s) h)
    {theirFilter : BloomFilter}
    {ids : List ObjectId} (h : SyncsTo P S order s ourHeads theirHeads theirFilter ids) :
    ∀ h ∈ theirHeads, h ∈ H.commits := by
  by_contra hnot
  obtain ⟨n, hn⟩ := H.syncReq_missing order hours htheirs (by simpa using hnot) theirFilter
  obtain ⟨m, hm⟩ := (syncsTo_iff hS hs order).mp h
  obtain ⟨e, he⟩ := hn (max n m) (Nat.le_max_left n m)
  have hok := he.symm.trans (hm (max n m) (Nat.le_max_right n m))
  cases hok

end Branch

end Lofire
