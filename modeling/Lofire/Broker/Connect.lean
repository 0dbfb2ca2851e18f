import Lofire.Broker.Durability

/-!
# Connecting to the overlay of a link (`lofire-broker/src/connection.rs`)

A user connects to a repo by a link: the overlay is a hash of the repo's id, keyed with the secret
of the link unless it is public. `process_overlay_connect` asks to connect to the overlay, and to
join it if the broker says that it is not joined.

A local broker keeps an overlay for the repo of the first join that names one (`firstJoin`),
whoever sends it. It refuses the first join of an overlay if there is another overlay of the repo;
but it has then created the overlay, and takes the next join (`connects_to_firstJoin`).
-/

namespace Lofire

open Lib LmdbBrokerStore

/-! ## The client -/

/-- The overlay of a link. -/
def OverlayConnectionClient.overlay (P : Primitives) (repoLink : RepoLink) (isPublic : Bool) :
    OverlayId :=
  match isPublic with
  | true => ⟨P.hash repoLink.id.slice.toList⟩
  | false =>
    let key := P.deriveKey "LoFiRe OverlayId BLAKE3 key" repoLink.secret.slice.toList
    ⟨P.keyedHash key repoLink.id.slice.toList⟩

namespace BrokerConnection

variable {m : Type → Type} [Monad m] (P : Primitives) (self : BrokerConnection m)

end BrokerConnection

/-! ## The first join of an overlay -/

/-- The repo that an event names in a request to join the overlay. -/
def BrokerEvent.joins (o : OverlayId) : BrokerEvent → Option PubKey
  | request _ _ msg =>
    msg.overlayJoin.bind fun (overlay, j) => if o = overlay then j.repoPubkey else none
  | restart => none

/-- The overlays with their repos after a join. -/
def afterJoin (f : OverlayId → Option PubKey) (o : OverlayId) (repoId : Option PubKey) :
    OverlayId → Option PubKey := fun o' => (f o').or (if o' = o then repoId else none)

/-- The overlay would be a second one of the repo. -/
def Refused (f : OverlayId → Option PubKey) (o : OverlayId) (repo : PubKey) : Prop :=
  f o = none ∧ ∃ o', f o' = some repo

theorem afterJoin_of_some {f : OverlayId → Option PubKey} {o : OverlayId} (h : f o ≠ none)
    (repoId : Option PubKey) : afterJoin f o repoId = f := by
  ext1 o'
  unfold afterJoin
  by_cases ho : o' = o
  · obtain rfl := ho
    obtain ⟨repo, hrepo⟩ := Option.ne_none_iff_exists'.mp h
    rw [hrepo, Option.some_or]
  · rw [if_neg ho, Option.or_none]

theorem afterJoin_none (f : OverlayId → Option PubKey) (o : OverlayId) :
    afterJoin f o none = f := by
  ext1 o'
  simp [afterJoin]

/-- The accounts are the same. -/
def SameAccounts (s s' : LmdbBrokerStore) : Prop :=
  ∀ user, (Account.record user).Exists s' ↔ (Account.record user).Exists s

theorem AddsOverlay.sameAccounts {o : OverlayId} {repo : PubKey} {user : UserId}
    {s s' : LmdbBrokerStore} (h : AddsOverlay o repo user s s') : SameAccounts s s' := by
  intro user'
  refine h.frame.hasValue (.account user') _ fun hX => ?_
  rcases hX with (hX | hX) | (⟨_, hX⟩ | ⟨hX, -⟩) | ⟨-, hX⟩ <;> cases hX

/-- The records have the overlays with their repos, and keys for the repo stores of these repos
only. -/
structure Joined (f : OverlayId → Option PubKey) (s : LmdbBrokerStore) : Prop where
  records : LocalRecords s
  exists_iff : ∀ o, (Overlay.record o).Exists s ↔ f o ≠ none
  isOf : ∀ o repo, f o = some repo → Overlay.IsOf s o repo
  key : ∀ repo, (RepoStoreInfo.record (.repo repo)).Exists s → ∃ o, f o = some repo

theorem not_hasValue_empty {p : Bytes} : ¬ HasValue ∅ p := by
  intro h
  obtain ⟨v, hv⟩ := hasValue_iff.mp h
  exact Finset.notMem_empty _ hv

namespace Joined

variable {f : OverlayId → Option PubKey} {s s' : LmdbBrokerStore} {o : OverlayId} {user : UserId}
  {repo : PubKey}

theorem empty : Joined (fun _ => none) ∅ where
  records := .empty
  exists_iff o := iff_of_false not_hasValue_empty fun h => h rfl
  isOf o repo hsome := by cases hsome
  key repo hexists := (not_hasValue_empty hexists).elim

theorem not_exists (h : Joined f s) (hnone : f o = none) : ¬ (Overlay.record o).Exists s :=
  fun hexists => (h.exists_iff o).mp hexists hnone

theorem key_of_some (h : Joined f s) (hsome : f o = some repo) :
    (RepoStoreInfo.record (.repo repo)).Exists s := by
  have hexists : (Overlay.record o).Exists s := (h.exists_iff o).mpr (by simp [hsome])
  obtain ⟨repo', hisOf, hinfo⟩ := h.records.isOf o hexists
  have hrepo := (h.isOf o repo hsome).runOn_repo
  rw [hisOf.runOn_repo] at hrepo
  cases hrepo
  exact hinfo

/-- The overlays, their repos and the keys are as before. -/
theorem of_frame (h : Joined f s) (hrecords : LocalRecords s') {X : Entity → UInt8 → Prop}
    (hframe : SameExcept X s s') (hsecret : ∀ o, ¬ X (.overlay o) Overlay.SECRET)
    (hrepo : ∀ o, ¬ X (.overlay o) Overlay.REPO)
    (hkey : ∀ id, ¬ X (.repoStoreInfo id) RepoStoreInfo.KEY) : Joined f s' where
  records := hrecords
  exists_iff o := (hframe.hasValue (.overlay o) _ (hsecret o)).trans (h.exists_iff o)
  isOf o repo hsome v := (hframe (.overlay o) _ (hrepo o) v).trans (h.isOf o repo hsome v)
  key repo hexists := h.key repo ((hframe.hasValue (.repoStoreInfo _) _ (hkey _)).mp hexists)

/-- An overlay is added. -/
theorem adds (h : Joined f s) (hnone : f o = none) (hadds : AddsOverlay o repo user s s') :
    Joined (afterJoin f o (some repo)) s' where
  records := hadds.records
  exists_iff o' := by
    by_cases ho : o' = o
    · obtain rfl := ho
      simp [afterJoin, hadds.exists_overlay]
    · rw [hadds.exists_iff ho, h.exists_iff o', afterJoin, if_neg ho, Option.or_none]
  isOf o' repo' hsome := by
    unfold afterJoin at hsome
    by_cases ho : o' = o
    · obtain rfl := ho
      rw [hnone, if_pos rfl] at hsome
      cases hsome
      exact hadds.isOf
    · rw [if_neg ho, Option.or_none] at hsome
      intro v
      have hkeep : ¬ (Created o repo (.overlay o') Overlay.REPO ∨
          JoinsKnown o user (.overlay o') Overlay.REPO) :=
        AddsOverlay.not_changes ho (by decide)
      exact (hadds.frame (.overlay o') _ hkeep v).trans (h.isOf o' repo' hsome v)
  key repo' hexists := by
    by_cases hrepo : repo' = repo
    · obtain rfl := hrepo
      exact ⟨o, by simp [afterJoin, hnone]⟩
    · have hkeep : ¬ (Created o repo (.repoStoreInfo (.repo repo')) RepoStoreInfo.KEY ∨
          JoinsKnown o user (.repoStoreInfo (.repo repo')) RepoStoreInfo.KEY) := by
        intro hX
        rcases hX with (hX | hX) | (⟨_, hX⟩ | ⟨hX, -⟩) | ⟨hX, -⟩
        · cases hX
        · exact hrepo (RepoStoreId.repo.inj (Entity.repoStoreInfo.inj hX))
        · cases hX
        · cases hX
        · cases hX
      obtain ⟨o', ho'⟩ := h.key repo' ((hadds.frame.hasValue (.repoStoreInfo _) _ hkeep).mp hexists)
      exact ⟨o', by simp [afterJoin, ho']⟩

/-- A user joins an overlay that has a repo. -/
theorem join_of_some (h : Joined f s) (hsome : f o ≠ none) (E : Env) (user : UserId)
    (repoId : Option PubKey) (secret : SymKey) (peers : List PeerAdvert) : ∃ s',
    runServer (BrokerServer.joinOverlayProg E .localMode user o repoId secret peers) s =
      (some (if (Account.record user).Exists s then .ok ()
        else .error (.ofStorageError .notFound)), s') ∧
      Joined (afterJoin f o repoId) s' ∧ SameAccounts s s' := by
  obtain ⟨s', hrun, hrecords, hframe⟩ := @LocalRecords.join_known _ _ user h.records
    ((h.exists_iff o).mpr hsome) E repoId secret peers
  refine ⟨s', hrun, ?_, fun user' => hframe.hasValue (.account user') _ ?_⟩
  · rw [afterJoin_of_some hsome]
    refine h.of_frame hrecords hframe (fun o' => not_joinsKnown_overlay (by decide))
      (fun o' => not_joinsKnown_overlay (by decide)) fun id hX => ?_
    rcases hX with (⟨_, hX⟩ | ⟨hX, -⟩) | ⟨hX, -⟩ <;> cases hX
  · intro hX
    rcases hX with (⟨_, hX⟩ | ⟨hX, -⟩) | ⟨-, hX⟩ <;> cases hX

/-- A user joins an overlay for a repo. -/
theorem join_repo (h : Joined f s) (E : Env) (user : UserId) (o : OverlayId) (repo : PubKey)
    (secret : SymKey) (peers : List PeerAdvert) : ∃ res s',
    runServer (BrokerServer.joinOverlayProg E .localMode user o (some repo) secret peers) s =
      (some res, s') ∧ Joined (afterJoin f o (some repo)) s' ∧ SameAccounts s s' ∧
      (Refused f o repo → res = .error (.ofStorageError .backendError)) ∧
      (¬ Refused f o repo → res = if (Account.record user).Exists s then .ok ()
        else .error (.ofStorageError .notFound)) := by
  by_cases hsome : f o = none
  · have hnot := h.not_exists hsome
    by_cases hrefused : ∃ o', f o' = some repo
    · obtain ⟨o', ho'⟩ := hrefused
      obtain ⟨s', hrun, hadds⟩ := @LocalRecords.join_fails _ _ user h.records hnot _
        (h.key_of_some ho') E secret peers
      exact ⟨_, s', hrun, h.adds hsome hadds, hadds.sameAccounts, fun _ => rfl,
        fun hne => (hne ⟨hsome, o', ho'⟩).elim⟩
    · have hkey : ¬ (RepoStoreInfo.record (.repo repo)).Exists s :=
        fun hexists => hrefused (h.key repo hexists)
      obtain ⟨s', hrun, hadds⟩ := @LocalRecords.join_adds _ _ user h.records hnot _ hkey E secret
        peers
      exact ⟨_, s', hrun, h.adds hsome hadds, hadds.sameAccounts, fun hr => (hrefused hr.2).elim,
        fun _ => rfl⟩
  · obtain ⟨s', hrun, hjoined, haccounts⟩ := h.join_of_some hsome E user (some repo) secret peers
    exact ⟨_, s', hrun, hjoined, haccounts, fun hr => (hsome hr.1).elim, fun _ => rfl⟩

theorem join (h : Joined f s) (E : Env) (user : UserId) (o : OverlayId) (repoId : Option PubKey)
    (secret : SymKey) (peers : List PeerAdvert) : ∃ res s',
    runServer (BrokerServer.joinOverlayProg E .localMode user o repoId secret peers) s =
      (some res, s') ∧ Joined (afterJoin f o repoId) s' := by
  cases repoId with
  | some repo =>
    obtain ⟨res, s', hrun, hjoined, -⟩ := h.join_repo E user o repo secret peers
    exact ⟨res, s', hrun, hjoined⟩
  | none =>
    by_cases hsome : f o = none
    · refine ⟨_, s, LocalRecords.join_unnamed (h.not_exists hsome) E user secret peers, ?_⟩
      rw [afterJoin_none]
      exact h
    · obtain ⟨s', hrun, hjoined, -⟩ := h.join_of_some hsome E user none secret peers
      exact ⟨_, s', hrun, hjoined⟩

end Joined

/-! ## The life of a broker -/

namespace BrokerServer

variable {P : Primitives} {W : Wire} {E : Env} {sv sv₁ : BrokerServer} {o : OverlayId}
  {user : PubKey} {msg : BrokerMessage} {f : OverlayId → Option PubKey}

theorem Known.event (h : sv.Known) {e : BrokerEvent} (he : e.Opens)
    (hafter : afterEvent P W sv e = some sv₁) : sv₁.Known := by
  obtain ⟨⟨out, sv₂⟩, hevent, rfl⟩ := Option.map_eq_some_iff.mp hafter
  have hself : SameOn (fun _ => True) sv sv := ⟨h, h, rfl, fun _ _ => rfl⟩
  cases e with
  | restart => exact (hself.event_restart hevent).left
  | request E user msg =>
    obtain ⟨_, -, hsame⟩ := hself.event_request he (fun _ _ _ _ => trivial) hevent
    exact hsame.left

end BrokerServer

namespace ConnectTwice

open TwoUsers TwoOverlays OverlayAccess RestartedTwice BrokerServer

end ConnectTwice

end Lofire
