import Lofire.Branch.Sync

/-!
# A requester that is ahead

A requester can have commits that the responder does not hold. `load_branch` passes over commits
with missing blocks, but `sync_req` loads the heads before and returns their errors. So it answers a
request if and only if it holds all of `their_heads`.
-/

namespace Lofire

open Lib

namespace Branch

variable {P : Primitives} {v : Object.View}

/-- The load of an id that the store does not know reports missing blocks. -/
theorem missing_of_absent {c : ObjectId} {e : StorageError}
    (hv : v c = .error e) : Missing P v c := by
  refine ⟨[c], 1, fun fuel hfuel => ?_⟩
  obtain ⟨fuel, rfl⟩ : ∃ k, fuel = k + 1 := ⟨fuel - 1, by omega⟩
  have hlevel : Object.loadLevel (m := Id) v [c] [] [] [] = ([], [], [c]) := by
    simp only [Object.loadLevel, id_bind, hv]
    rfl
  rw [Object.loadView_succ, Object.loadTree_succ, hlevel]
  rfl

/-- The request is answered, as if the heads that are not held were left out, if and only if all of
`theirHeads` are held. -/
theorem syncReq_ahead_iff {σ : Type} {D : Set BlockBody} {S : RepoStore σ}
    (hS : S.Lawful P D) {s : σ}
    (hs : hS.Inv s) (order : HashOrder ObjectId) (H : HeldCommits P (hS.view s))
    {ourHeads theirHeads : List ObjectId} (hours : ∀ h ∈ ourHeads, h ∈ H.commits)
    (htheirs : ∀ h ∈ theirHeads, h ∈ H.commits ∨ Missing P (hS.view s) h)
    (theirFilter : BloomFilter) :
    (∃ ids, SyncsTo P S order s ourHeads theirHeads theirFilter ids ∧
      SyncsTo P S order s ourHeads (theirHeads.filter fun h => decide (h ∈ H.commits))
      theirFilter ids) ↔
      ∀ h ∈ theirHeads, h ∈ H.commits := by
  constructor
  · rintro ⟨ids, hsync, -⟩
    exact hsync.heads_held hS hs H hours htheirs
  · intro hheld
    obtain ⟨ids, hids, -⟩ := H.syncReq_spec order hours hheld theirFilter
    have hsync := (syncsTo_iff hS hs order).mpr hids
    have hfilter : theirHeads.filter (fun h => decide (h ∈ H.commits)) = theirHeads :=
      List.filter_eq_self.mpr fun h hh => decide_eq_true (hheld h hh)
    refine ⟨ids, hsync, ?_⟩
    rw [hfilter]
    exact hsync

theorem syncReq_ahead_iff_child :
    ∃ ids, SyncsTo (reference fun _ _ => false)
      (HashMapRepoStore.repoStore (reference fun _ _ => false) 0) .ascending
      (twoCommits (reference fun _ _ => false))
      [(rootCommit (reference fun _ _ => false)).id (reference fun _ _ => false)]
      [(headCommit (reference fun _ _ => false)).id (reference fun _ _ => false)] ⟨1, []⟩ ids := by
  let P := reference fun _ _ => false
  have hne : (rootCommit P).id P ≠ (headCommit P).id P := rootCommit_ne
  have hours : ∀ h ∈ [(rootCommit P).id P], h ∈ (twoGraph hne).held.commits := by
    simp [CommitGraph.held, mem_twoGraph]
  have htheirs : ∀ h ∈ [(headCommit P).id P], h ∈ (twoGraph hne).held.commits := by
    simp [CommitGraph.held, mem_twoGraph]
  obtain ⟨ids, hsync, -⟩ :=
    (syncReq_ahead_iff (HashMapRepoStore.lawful P Set.univ 0) trivial .ascending
    (twoGraph hne).held hours (fun h hh => .inl (htheirs h hh)) ⟨1, []⟩).mpr htheirs
  exact ⟨ids, hsync⟩

/-- The hash map that holds the commit without dependencies. -/
def oneCommit (P : Primitives) : HashMapRepoStore :=
  ⟨Function.update (fun _ => none) ((rootCommit P).id P) (some (rootCommit P))⟩

def oneGraph (P : Primitives) : CommitGraph P (oneCommit P).view :=
  singles P [rootCommit P] (fun _ => [])
    (fun b hb => by rw [List.mem_singleton.mp hb]; exact ⟨rfl, rfl⟩) (by simp) (by simp [oneCommit])

theorem mem_oneGraph {c : ObjectId} : c ∈ (oneGraph P).held.commits ↔ c = (rootCommit P).id P := by
  simp [oneGraph, singles, CommitGraph.held]

theorem missing_headCommit (hne : (rootCommit P).id P ≠ (headCommit P).id P) :
    Missing P (oneCommit P).view ((headCommit P).id P) := by
  have hnone : (oneCommit P).blocks ((headCommit P).id P) = none := by
    unfold oneCommit
    dsimp only
    rw [Function.update_of_ne hne.symm]
  refine missing_of_absent (e := .notFound) ?_
  simp only [HashMapRepoStore.view, hnone]

/-- The responder holds one commit, and the requester has another one that the responder does not
know. -/
theorem not_syncReq_ahead :
    ¬ ∀ (order : HashOrder ObjectId) (s : HashMapRepoStore)
      (H : HeldCommits (reference fun _ _ => false) s.view) (ourHeads theirHeads : List ObjectId)
      (theirFilter : BloomFilter), (∀ h ∈ ourHeads, h ∈ H.commits) →
      (∀ h ∈ theirHeads, h ∈ H.commits ∨ Missing (reference fun _ _ => false) s.view h) →
      ∃ ids, SyncsTo (reference fun _ _ => false)
        (HashMapRepoStore.repoStore (reference fun _ _ => false) 0) order s ourHeads theirHeads
        theirFilter ids := by
  intro hclaim
  let P := reference fun _ _ => false
  have hne : (rootCommit P).id P ≠ (headCommit P).id P := rootCommit_ne
  have hours : ∀ h ∈ [(rootCommit P).id P], h ∈ (oneGraph P).held.commits := by simp [mem_oneGraph]
  have htheirs : ∀ h ∈ [(headCommit P).id P],
      h ∈ (oneGraph P).held.commits ∨ Missing P (oneCommit P).view h := by
    intro h hh
    rw [List.mem_singleton.mp hh]
    exact .inr (missing_headCommit hne)
  obtain ⟨ids, hsync⟩ := hclaim .ascending (oneCommit P) (oneGraph P).held _ _ ⟨1, []⟩ hours htheirs
  have hheld := hsync.heads_held (HashMapRepoStore.lawful P Set.univ 0) trivial
    (oneGraph P).held hours htheirs
  exact hne (mem_oneGraph.mp (hheld _ (List.mem_singleton_self _))).symm

end Branch

end Lofire
