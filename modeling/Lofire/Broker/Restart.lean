import Lofire.Broker.Answers
import Lofire.Lib.Unwinding

/-!
# Restarts of a broker

What a local broker has in memory it has found in its records: the repo of an overlay, and the key
of a repo store (`Known`). Two such brokers with the same records and the same repo stores give the
same replies, whatever each of them has in memory (`SameOn`), so that the users of a broker do not
notice when it is started again on its disk (`restarts_invisible`).
-/

namespace Lofire

open Lib LmdbBrokerStore

/-! ## The records grow -/

section Grows

variable {s s' : LmdbBrokerStore} {o : OverlayId} {user : UserId}

/-- The overlays keep their repos, and the broker keeps its mode. -/
structure Grows (s s' : LmdbBrokerStore) : Prop where
  exists_overlay : ∀ o, (Overlay.record o).Exists s → (Overlay.record o).Exists s'
  repo : ∀ o, (Overlay.record o).Exists s → ∀ v,
    ((Overlay.record o).prop Overlay.REPO, v) ∈ s' ↔ ((Overlay.record o).prop Overlay.REPO, v) ∈ s
  config : ∀ v, (Config.record.prop Config.MODE, v) ∈ s' ↔ (Config.record.prop Config.MODE, v) ∈ s

namespace Grows

theorem refl (s : LmdbBrokerStore) : Grows s s :=
  ⟨fun _ h => h, fun _ _ _ => Iff.rfl, fun _ => Iff.rfl⟩

theorem of_sameExcept {X : Entity → UInt8 → Prop} (h : SameExcept X s s')
    (hsecret : ∀ o, (Overlay.record o).Exists s → ¬ X (.overlay o) Overlay.SECRET)
    (hrepo : ∀ o, (Overlay.record o).Exists s → ¬ X (.overlay o) Overlay.REPO)
    (hconfig : ¬ X .config Config.MODE) : Grows s s' where
  exists_overlay o hexists := (h.hasValue (.overlay o) _ (hsecret o hexists)).mpr hexists
  repo o hexists := h (.overlay o) _ (hrepo o hexists)
  config := h .config _ hconfig

end Grows

/-- The properties that change when an overlay of a repo is created. -/
def Created (o : OverlayId) (repo : PubKey) (e : Entity) (_ : UInt8) : Prop :=
  e = .overlay o ∨ e = .repoStoreInfo (.repo repo)

/-- A user has joined an overlay of the repo that did not exist. -/
structure AddsOverlay (o : OverlayId) (repo : PubKey) (user : UserId) (s s' : LmdbBrokerStore) :
    Prop where
  records : LocalRecords s'
  frame : SameExcept (fun e suffix => Created o repo e suffix ∨ JoinsKnown o user e suffix) s s'
  exists_overlay : (Overlay.record o).Exists s'
  isOf : Overlay.IsOf s' o repo

namespace AddsOverlay

variable {repo : PubKey}

/-- The other overlays stay. -/
theorem not_changes {o' : OverlayId} {suffix : UInt8} (ho : o' ≠ o)
    (hsuffix : suffix ≠ Overlay.PEER) :
    ¬ (Created o repo (.overlay o') suffix ∨ JoinsKnown o user (.overlay o') suffix) := by
  intro hX
  rcases hX with (hX | hX) | hX
  · exact ho (Entity.overlay.inj hX)
  · cases hX
  · exact not_joinsKnown_overlay hsuffix hX

theorem exists_iff (h : AddsOverlay o repo user s s') {o' : OverlayId} (ho : o' ≠ o) :
    (Overlay.record o').Exists s' ↔ (Overlay.record o').Exists s :=
  h.frame.hasValue (.overlay o') Overlay.SECRET (not_changes ho (by decide))

theorem grows (h : AddsOverlay o repo user s s') (hnot : ¬ (Overlay.record o).Exists s) :
    Grows s s' := by
  have hother : ∀ o', (Overlay.record o').Exists s → o' ≠ o := by
    rintro o' hexists rfl
    exact hnot hexists
  refine .of_sameExcept h.frame (fun o' ho => not_changes (hother o' ho) (by decide))
    (fun o' ho => not_changes (hother o' ho) (by decide)) fun hX => ?_
  rcases hX with (hX | hX) | (⟨_, hX⟩ | ⟨hX, -⟩) | ⟨hX, -⟩ <;> cases hX

end AddsOverlay

theorem Grows.of_joinsKnown (h : SameExcept (JoinsKnown o user) s s') : Grows s s' := by
  refine .of_sameExcept h (fun o' _ => not_joinsKnown_overlay (by decide))
    (fun o' _ => not_joinsKnown_overlay (by decide)) fun hX => ?_
  rcases hX with (⟨_, hX⟩ | ⟨hX, -⟩) | ⟨hX, -⟩ <;> cases hX

/-- A local broker creates an overlay, and then the key of its repo store. -/
theorem runServer_createOverlay_eq (E : Env) {repo : PubKey} {secret : SymKey}
    (hcreate : runOn (Overlay.create o secret (some repo) E.now) s = (.ok (), s')) :
    runServer (BrokerServer.createOverlay E .localMode o (some repo) secret) s = runServer
      (ServerProg.ofStore (RepoStoreInfo.create (.repo repo) ⟨E.randomBuf⟩)) s' := by
  have hcreate' : runServer (ServerProg.ofStore (Overlay.create o secret (some repo) E.now)) s =
      (some (.ok ()), s') := by
    rw [runServer_ofStore, hcreate]
    rfl
  have hid : runServer (ServerProg.unwrap (BrokerServer.computeRepostoreId
      .localMode o (some repo))) s' = (some (.ok (.repo repo)), s') := rfl
  unfold BrokerServer.createOverlay
  rw [if_neg nofun]
  dsimp only
  rw [if_pos rfl, runServer_bind_ok hcreate', runServer_bind_ok hid]

namespace LocalRecords

/-- A join of an overlay that does not exist has to name a repo. -/
theorem join_unnamed (hnot : ¬ (Overlay.record o).Exists s) (E : Env) (user : UserId)
    (secret : SymKey) (peers : List PeerAdvert) :
    runServer (BrokerServer.joinOverlayProg E .localMode user o none secret peers) s =
      (some (.error .repoIdRequired), s) := by
  have hopen : runServer (ServerProg.result (Overlay.openId o)) s =
      (some (.ok (.error .notFound)), s) := by
    rw [runServer_result, Overlay.openId, Record.runOn_openRecord, if_neg hnot]
  have hcreate : runServer (BrokerServer.createOverlay E .localMode o none secret) s =
      (some (.error .repoIdRequired), s) := rfl
  unfold BrokerServer.joinOverlayProg
  rw [runServer_bind_ok hopen]
  dsimp only
  rw [runServer_bind_error hcreate]

/-- A join of an overlay that does not exist fails if the repo store has a key, and the overlay
stays. -/
theorem join_fails (h : LocalRecords s) (hnot : ¬ (Overlay.record o).Exists s)
    {repo : PubKey} (hkey : (RepoStoreInfo.record (.repo repo)).Exists s) (E : Env)
    (secret : SymKey) (peers : List PeerAdvert) : ∃ s',
    runServer (BrokerServer.joinOverlayProg E .localMode user o (some repo) secret peers) s =
      (some (.error (.ofStorageError .backendError)), s') ∧ AddsOverlay o repo user s s' := by
  have hopen : runServer (ServerProg.result (Overlay.openId o)) s =
      (some (.ok (.error .notFound)), s) := by
    rw [runServer_result, Overlay.openId, Record.runOn_openRecord, if_neg hnot]
  obtain ⟨s', hcreate, hframe, hexists, -⟩ := runOn_overlayCreate hnot secret (some repo) E.now
  have hisOf := isOf_overlayCreate hnot (h.noRepo o hnot) secret repo E.now
  rw [hcreate] at hisOf
  obtain ⟨key, hhasKey⟩ := h.hasKey _ hkey
  have hkey' : RepoStoreInfo.HasKey s' (.repo repo) key := fun v =>
    (hframe (.repoStoreInfo _) RepoStoreInfo.KEY (fun hX => by cases hX.1) v).trans (hhasKey v)
  have hcheck : runOn (RepoStoreInfo.record (.repo repo)).checkNew s' =
      (.error .backendError, s') := by
    rw [Record.runOn_checkNew, if_pos hkey'.exists]
  have hinfo : runServer (ServerProg.ofStore (RepoStoreInfo.create (.repo repo) ⟨E.randomBuf⟩)) s' =
      (some (.error (.ofStorageError .backendError)), s') := by
    unfold RepoStoreInfo.create
    rw [runServer_ofStore, runOn_bind_error hcheck]
    rfl
  have hcreated : SameExcept (Created o repo) s s' := hframe.mono fun _ _ hX => .inl hX.1
  have hpeers : Peer.Sound s' :=
    h.peers.of_others hcreated (by rintro id suffix (hX | hX) <;> cases hX)
  refine ⟨s', ?_, h.created hpeers hcreated hexists hisOf hkey',
    hcreated.mono fun _ _ hX => .inl hX, hexists, hisOf⟩
  unfold BrokerServer.joinOverlayProg
  rw [runServer_bind_ok hopen]
  dsimp only
  exact runServer_bind_error ((runServer_createOverlay_eq E hcreate).trans hinfo) _

/-- A join of an overlay that does not exist, if the repo store has no key. -/
theorem join_adds (h : LocalRecords s) (hnot : ¬ (Overlay.record o).Exists s)
    {repo : PubKey} (hkey : ¬ (RepoStoreInfo.record (.repo repo)).Exists s) (E : Env)
    (secret : SymKey) (peers : List PeerAdvert) : ∃ s',
    runServer (BrokerServer.joinOverlayProg E .localMode user o (some repo) secret peers) s =
      (some (if (Account.record user).Exists s then .ok ()
        else .error (.ofStorageError .notFound)), s') ∧ AddsOverlay o repo user s s' := by
  have hopen : runServer (ServerProg.result (Overlay.openId o)) s =
      (some (.ok (.error .notFound)), s) := by
    rw [runServer_result, Overlay.openId, Record.runOn_openRecord, if_neg hnot]
  obtain ⟨s₁, hcreate, hframe₁, hexists₁, hisOf₁, hkey₁⟩ :=
    runServer_createOverlay_local E hnot (h.noRepo o hnot) hkey secret
  have hpeers₁ : Peer.Sound s₁ :=
    h.peers.of_others hframe₁ (by rintro id suffix (hX | hX) <;> cases hX)
  have h₁ : LocalRecords s₁ := h.created hpeers₁ hframe₁ hexists₁ hisOf₁ hkey₁
  have hopen₁ : runServer (ServerProg.result (Overlay.openId o)) s₁ =
      (some (.ok (.ok ())), s₁) := by
    rw [runServer_result, Overlay.openId, Record.runOn_openRecord, if_pos hexists₁]
  obtain ⟨s', hrun, h', hframe'⟩ :=
    @join_known _ _ user h₁ hexists₁ E (some repo) secret peers
  have hsame :
      runServer (BrokerServer.joinOverlayProg E .localMode user o (some repo) secret peers) s =
      runServer (BrokerServer.joinOverlayProg E .localMode user o (some repo) secret peers) s₁ := by
    unfold BrokerServer.joinOverlayProg
    rw [runServer_bind_ok hopen, runServer_bind_ok hopen₁]
    dsimp only
    rw [runServer_bind_ok hcreate]
  have haccount : (Account.record user).Exists s₁ ↔ (Account.record user).Exists s :=
    hframe₁.hasValue (.account user) _ (by rintro (hX | hX) <;> cases hX)
  refine ⟨s', ?_, h', ?_, ?_, fun v => ?_⟩
  · rw [hsame, hrun]
    simp only [haccount]
  · exact (hframe₁.mono fun _ _ hX => .inl hX).trans (hframe'.mono fun _ _ hX => .inr hX)
  · have hsecret : ¬ JoinsKnown o user (.overlay o) Overlay.SECRET :=
      not_joinsKnown_overlay (by decide)
    exact (hframe'.hasValue (.overlay o) Overlay.SECRET hsecret).mpr hexists₁
  · exact (hframe' (.overlay o) _ (not_joinsKnown_overlay (by decide)) v).trans (hisOf₁ v)

/-- Whatever becomes of a join, the records only grow. -/
theorem join_grows (h : LocalRecords s) (E : Env) (user : UserId) (o : OverlayId)
    (repoId : Option PubKey) (secret : SymKey) (peers : List PeerAdvert) : ∃ res s',
    runServer (BrokerServer.joinOverlayProg E .localMode user o repoId secret peers) s =
      (some res, s') ∧ LocalRecords s' ∧ Grows s s' := by
  by_cases hexists : (Overlay.record o).Exists s
  · obtain ⟨s', hrun, h', hframe⟩ := @join_known _ _ user h hexists E repoId secret peers
    exact ⟨_, s', hrun, h', .of_joinsKnown hframe⟩
  · cases repoId with
    | none =>
      exact ⟨_, s, join_unnamed hexists E user secret peers, h, .refl s⟩
    | some repo =>
      by_cases hkey : (RepoStoreInfo.record (.repo repo)).Exists s
      · obtain ⟨s', hrun, hadds⟩ := @join_fails _ _ user h hexists _ hkey E secret peers
        exact ⟨_, s', hrun, hadds.records, hadds.grows hexists⟩
      · obtain ⟨s', hrun, hadds⟩ := @join_adds _ _ user h hexists _ hkey E secret peers
        exact ⟨_, s', hrun, hadds.records, hadds.grows hexists⟩

end LocalRecords

end Grows

/-! ## What a broker has in memory -/

/-- Directories can be created, and LMDB opens the repo stores. -/
def Env.Opens (E : Env) : Prop :=
  (∀ id, E.createDirAll id = true) ∧ ∀ id key, E.canOpen id key = true

namespace BrokerServer

/-- What a local broker has in memory it has found in its records. -/
structure Known (sv : BrokerServer) : Prop where
  mode_eq : sv.mode = .localMode
  recorded : ∀ v, (Config.record.prop Config.MODE, v) ∈ sv.store ↔
    v = Config.configMode.encode .localMode
  localRecords : LocalRecords sv.store
  cached : ∀ o id, sv.overlayidToRepostore o = some id →
    ∃ repo, id = .repo repo ∧ sv.RepoOf o repo ∧ id ∈ sv.repoStores

variable {E : Env} {sv sv' : BrokerServer} {o : OverlayId} {repo : PubKey}

theorem RepoOf.grows (h : sv.RepoOf o repo) (hrecords : LocalRecords sv.store)
    (hgrows : Grows sv.store sv'.store) : sv'.RepoOf o repo := by
  obtain ⟨repo', hisOf, -⟩ := hrecords.isOf o h.1
  obtain rfl : repo = repo' := h.unique ⟨h.1, hisOf.runOn_repo⟩
  have hisOf' : Overlay.IsOf sv'.store o repo := fun v =>
    (hgrows.repo o h.1 v).trans (hisOf v)
  exact ⟨hgrows.exists_overlay o h.1, hisOf'.runOn_repo⟩

namespace Known

theorem repoOf (h : sv.Known) (hcached : sv.overlayidToRepostore o ≠ none) :
    ∃ repo, sv.RepoOf o repo := by
  obtain ⟨id, hid⟩ := Option.ne_none_iff_exists'.mp hcached
  obtain ⟨repo, -, hrepo, -⟩ := h.cached o id hid
  exact ⟨repo, hrepo⟩

/-- The records grow, and what is in memory stays. -/
theorem of_grows (h : sv.Known) {store : LmdbBrokerStore} (hrecords : LocalRecords store)
    (hgrows : Grows sv.store store) : Known { sv with store } where
  mode_eq := h.mode_eq
  recorded v := (hgrows.config v).trans (h.recorded v)
  localRecords := hrecords
  cached o id hid := by
    obtain ⟨repo, rfl, hrepo, hopen⟩ := h.cached o id hid
    exact ⟨repo, rfl, hrepo.grows h.localRecords hgrows, hopen⟩

theorem of_disk (h : sv.Known) (disk : RepoStoreId → LmdbRepoStore) :
    Known { sv with disk } := ⟨h.mode_eq, h.recorded, h.localRecords, h.cached⟩

/-- The repo store of an overlay is opened. -/
theorem opened (h : sv.Known) (hrepo : sv.RepoOf o repo) :
    Known { sv.cache o (.repo repo) with repoStores := insert (.repo repo) sv.repoStores } where
  mode_eq := h.mode_eq
  recorded := h.recorded
  localRecords := h.localRecords
  cached o' id hid := by
    simp only [BrokerServer.cache, Function.update_apply] at hid
    split at hid
    · rename_i ho
      cases hid
      exact ⟨repo, rfl, ho ▸ hrepo, Finset.mem_insert_self ..⟩
    · obtain ⟨repo', rfl, hrepo', hopen⟩ := h.cached o' id hid
      exact ⟨repo', rfl, hrepo', Finset.mem_insert_of_mem hopen⟩

theorem openable (h : sv.Known) (hE : E.Opens) (hrepo : sv.RepoOf o repo) :
    Openable E sv (.repo repo) := by
  obtain ⟨repo', hisOf, hinfo⟩ := h.localRecords.isOf o hrepo.1
  obtain rfl : repo = repo' := hrepo.unique ⟨hrepo.1, hisOf.runOn_repo⟩
  obtain ⟨key, hkey⟩ := h.localRecords.hasKey _ hinfo
  exact ⟨hinfo, ⟨key, hkey.runOn_key⟩, hE.1 _⟩

/-- An overlay that exists resolves to the repo store of its repo, and what is opened for this is
in memory only. -/
theorem serve_resolve (h : sv.Known) (hE : E.Opens) (hrepo : sv.RepoOf o repo) : ∃ sv₁,
    sv.serve (resolveRepostore E o) = some (.ok (.repo repo), sv₁) ∧ sv₁.Known ∧
      sv₁.store = sv.store ∧ sv₁.disk = sv.disk := by
  cases hcached : sv.overlayidToRepostore o with
  | none =>
    have hopenable : Openable E (sv.cache o (.repo repo)) (.repo repo) := h.openable hE hrepo
    obtain ⟨key, hopen⟩ := hopenable.serve_openRepostore false
    rw [hE.2] at hopen
    refine ⟨_, ?_, h.opened hrepo, rfl, rfl⟩
    rw [hrepo.serve_resolveRepostore h.mode_eq hcached, serve_bind_eq, hopen]
    rfl
  | some id =>
    obtain ⟨repo', rfl, hrepo', hopen⟩ := h.cached o id hcached
    obtain rfl : repo = repo' := hrepo.unique hrepo'
    refine ⟨sv, ?_, h, rfl, rfl⟩
    rw [serve_resolveRepostore, h.mode_eq]
    dsimp only
    rw [hcached]
    dsimp only
    rw [if_pos hopen]
    rfl

/-- An overlay that does not exist resolves to nothing, by the records alone. -/
theorem serve_resolve_none (hnot : ∀ repo, ¬ sv.RepoOf o repo) : ∃ e,
    ∀ sv' : BrokerServer, sv'.Known → sv'.store = sv.store →
      sv'.serve (resolveRepostore E o) = some (.error e, sv') := by
  obtain ⟨e, he⟩ := serve_readRepo_of_not hnot
  refine ⟨e, fun sv' h' hstore => ?_⟩
  have hread : sv'.serve (LockedM.readRepo o) = some (.error e, sv') := by
    unfold LockedM.readRepo at he ⊢
    rw [serve_records_eq] at he ⊢
    rw [hstore]
    split at he
    · rename_i res store _
      simp only [Option.some.injEq, Prod.mk.injEq] at he
      obtain ⟨rfl, hsv⟩ := he
      have hstore' : store = sv.store := congrArg BrokerServer.store hsv
      rw [hstore', ← hstore]
    · cases he
  have hcached : sv'.overlayidToRepostore o = none := by
    by_contra hcached
    obtain ⟨repo, hrepo⟩ := h'.repoOf hcached
    unfold RepoOf at hrepo
    rw [hstore] at hrepo
    exact hnot repo hrepo
  rw [serve_resolveRepostore, h'.mode_eq]
  dsimp only
  rw [hcached]
  dsimp only
  rw [serve_bind_eq, hread]

end Known

/-! ## Brokers with the same disk -/

/-- The brokers have the same records and the same repo stores `ids`. -/
structure SameOn (ids : RepoStoreId → Prop) (sv sv' : BrokerServer) : Prop where
  left : sv.Known
  right : sv'.Known
  store_eq : sv.store = sv'.store
  disk_eq : ∀ id, ids id → sv.disk id = sv'.disk id

variable {ids : RepoStoreId → Prop} {α : Type}

theorem SameOn.symm (h : SameOn ids sv sv') : SameOn ids sv' sv :=
  ⟨h.right, h.left, h.store_eq.symm, fun id hid => (h.disk_eq id hid).symm⟩

/-- If the operation returns on one of the brokers, it has the same result on the other one, and
they are still the same. -/
def Agrees (ids : RepoStoreId → Prop) (sv sv' : BrokerServer) (x : ServerM α) : Prop :=
  ∀ res sv₁, sv.serve x = some (res, sv₁) → ∃ sv₁', sv'.serve x = some (res, sv₁') ∧
    SameOn ids sv₁ sv₁'

namespace SameOn

/-- A repo store that both brokers have is changed in the same way. -/
theorem update (h : SameOn ids sv sv') (id : RepoStoreId) (c : LmdbRepoStore) :
    SameOn ids { sv with disk := Function.update sv.disk id c }
      { sv' with disk := Function.update sv'.disk id c } where
  left := h.left.of_disk _
  right := h.right.of_disk _
  store_eq := h.store_eq
  disk_eq id' hid' := by
    dsimp only
    rw [Function.update_apply, Function.update_apply, h.disk_eq id' hid']

/-- A repo store that is not looked at is changed. -/
theorem update_left (h : SameOn ids sv sv') {id : RepoStoreId} (hid : ¬ ids id)
    (c : LmdbRepoStore) : SameOn ids { sv with disk := Function.update sv.disk id c } sv' where
  left := h.left.of_disk _
  right := h.right
  store_eq := h.store_eq
  disk_eq id' hid' := by
    have hne : id' ≠ id := fun heq => hid (heq ▸ hid')
    exact (Function.update_of_ne hne ..).trans (h.disk_eq id' hid')

theorem repoOf (h : SameOn ids sv sv') : sv.RepoOf o repo ↔ sv'.RepoOf o repo := by
  unfold RepoOf
  rw [h.store_eq]

theorem agrees_throw (h : SameOn ids sv sv') (e : ProtocolError) :
    Agrees ids sv sv' (throw e : ServerM α) := by
  intro res sv₁ hserve
  cases hserve
  exact ⟨sv', rfl, h⟩

theorem agrees_pure (h : SameOn ids sv sv') (a : α) :
    Agrees ids sv sv' (pure a : ServerM α) := by
  intro res sv₁ hserve
  cases hserve
  exact ⟨sv', rfl, h⟩

/-- A program that lets the records grow. -/
theorem agrees_records (h : SameOn ids sv sv') {x : ServerProg α}
    (hgrows : ∀ res store, runServer x sv.store = (some res, store) →
      LocalRecords store ∧ Grows sv.store store) : Agrees ids sv sv' (records x) := by
  intro res sv₁ hserve
  rw [serve_records_eq] at hserve
  split at hserve
  · rename_i res' store hrun
    simp only [Option.some.injEq, Prod.mk.injEq] at hserve
    obtain ⟨rfl, rfl⟩ := hserve
    obtain ⟨hrecords, hstore⟩ := hgrows _ _ hrun
    have hrun' : runServer x sv'.store = (some res', store) := h.store_eq ▸ hrun
    refine ⟨{ sv' with store }, serve_records_run hrun', h.left.of_grows hrecords hstore, ?_, rfl,
      h.disk_eq⟩
    exact h.right.of_grows hrecords (h.store_eq ▸ hstore)
  · cases hserve

theorem agrees_addUser (h : SameOn ids sv sv') (W : Wire) (adminUser userId : PubKey) (sig : Sig) :
    Agrees ids sv sv' (addUser W adminUser userId sig) := by
  unfold addUser
  split
  · exact h.agrees_throw _
  · refine h.agrees_records fun res store hrun => ?_
    have hframe : SameExcept (fun e suffix => e = .account userId ∧ suffix = Account.ADMIN)
        sv.store (some res, store).2 := by
      rw [← hrun]
      exact sameExcept_addUser sv.store userId
    have hpeers := h.left.localRecords.peers.of_others hframe nofun
    exact ⟨h.left.localRecords.of_frame hpeers hframe nofun nofun nofun,
      .of_sameExcept hframe (fun _ _ => nofun) (fun _ _ => nofun) nofun⟩

theorem agrees_join (h : SameOn ids sv sv') (E : Env) (user : PubKey) (o : OverlayId)
    (repoId : Option PubKey) (secret : SymKey) (peers : List PeerAdvert) :
    Agrees ids sv sv' (joinOverlay E user o repoId secret peers) := by
  have hrecords : Agrees ids sv sv'
      (records (joinOverlayProg E .localMode user o repoId secret peers)) := by
    refine h.agrees_records fun res store hrun => ?_
    obtain ⟨res', store', hrun', hrecords⟩ :=
      h.left.localRecords.join_grows E user o repoId secret peers
    rw [hrun] at hrun'
    cases hrun'
    exact hrecords
  intro res sv₁ hserve
  rw [serve_joinOverlay, h.left.mode_eq] at hserve
  rw [serve_joinOverlay, h.right.mode_eq]
  exact hrecords res sv₁ hserve

/-- An operation on the repo store of an overlay, of which both brokers have the repo store. -/
theorem agrees_get (h : SameOn ids sv sv') (hE : E.Opens)
    (hids : ∀ repo, sv.RepoOf o repo → ids (.repo repo))
    (f : StoreM ClockedStore (RepoResult α)) :
    Agrees ids sv sv' (getRepostoreFromOverlayId E o f) := by
  intro res sv₁ hserve
  rw [getRepostoreFromOverlayId_eq] at hserve ⊢
  by_cases hrepo : ∃ repo, sv.RepoOf o repo
  · obtain ⟨repo, hrepo⟩ := hrepo
    obtain ⟨sv₂, hresolve, hknown, hstore, hdisk⟩ := h.left.serve_resolve hE hrepo
    obtain ⟨sv₂', hresolve', hknown', hstore', hdisk'⟩ :=
      h.right.serve_resolve hE (h.repoOf.mp hrepo)
    have h₂ : SameOn ids sv₂ sv₂' := by
      refine ⟨hknown, hknown', ?_, fun id hid => ?_⟩
      · rw [hstore, hstore', h.store_eq]
      · rw [hdisk, hdisk', h.disk_eq id hid]
    rw [serve_bind_of_ok hresolve] at hserve
    rw [serve_bind_of_ok hresolve']
    obtain ⟨c, hrun, rfl⟩ := serve_onRepoStore hserve
    rw [h₂.disk_eq _ (hids repo hrepo)] at hrun
    exact ⟨_, serve_onRepoStore_run hrun, h₂.update _ _⟩
  · obtain ⟨e, he⟩ := Known.serve_resolve_none (not_exists.mp hrepo)
    rw [serve_bind_eq, he sv h.left rfl] at hserve
    cases hserve
    refine ⟨sv', ?_, h⟩
    rw [serve_bind_eq, he sv' h.right h.store_eq.symm]

/-- An operation on the repo store of an overlay that is not looked at. -/
theorem hides_get (h : SameOn ids sv sv') (hE : E.Opens) (hrepo : sv.RepoOf o repo)
    (hid : ¬ ids (.repo repo)) {f : StoreM ClockedStore (RepoResult α)}
    {res : Except ProtocolError α} {sv₁ : BrokerServer}
    (hserve : sv.serve (getRepostoreFromOverlayId E o f) = some (res, sv₁)) :
    SameOn ids sv₁ sv' := by
  obtain ⟨sv₂, hresolve, hknown, hstore, hdisk⟩ := h.left.serve_resolve hE hrepo
  rw [getRepostoreFromOverlayId_eq, serve_bind_of_ok hresolve] at hserve
  obtain ⟨c, -, rfl⟩ := serve_onRepoStore hserve
  have h₂ : SameOn ids sv₂ sv' := by
    refine ⟨hknown, h.right, hstore.trans h.store_eq, fun id hid => ?_⟩
    rw [hdisk]
    exact h.disk_eq id hid
  exact h₂.update_left hid _

end SameOn

/-! ## Starting a broker -/

section New

variable {store : LmdbBrokerStore} {mode : ConfigMode} {disk : RepoStoreId → LmdbRepoStore}

theorem run_getOrCreate_recorded (h : ∀ v, (Config.record.prop Config.MODE, v) ∈ store ↔
    v = Config.configMode.encode .localMode) (mode : ConfigMode) :
    (Config.getOrCreate mode).run.run exec store =
      (some (if .localMode = mode then .ok () else .error .invalidValue), store) := by
  have hexists : Config.record.Exists store := hasValue_iff.mpr ⟨_, (h _).mpr rfl⟩
  have hopen : Config.openConfig.run.run exec store = (.ok (), store) := by
    have hrun := Config.record.runOn_openRecord (s := store)
    rw [if_pos hexists] at hrun
    exact hrun
  have hmode : Config.mode.run.run exec store = (.ok .localMode, store) :=
    Record.runOn_property_single h
  unfold Config.getOrCreate
  rw [OptionT.run_mk, Prog.run_bind, hopen]
  dsimp only
  rw [Prog.run_bind, hmode]
  rfl

/-- A broker whose records have the mode can be started in this mode only. -/
theorem new_recorded (h : ∀ v, (Config.record.prop Config.MODE, v) ∈ store ↔
    v = Config.configMode.encode .localMode) : BrokerServer.new store mode disk =
      some (if .localMode = mode then .ok ⟨store, .localMode, ∅, fun _ => none, disk⟩
        else .error .mismatchedMode) := by
  have hmode : Config.mode.run.run exec store = (.ok .localMode, store) :=
    Record.runOn_property_single h
  have hrun : (configMode mode).run.run exec store =
      (some (if .localMode = mode then .ok .localMode else .error .invalidValue), store) := by
    unfold configMode
    rw [OptionT.run_bind, Option.elimM, Prog.run_bind, run_getOrCreate_recorded h]
    by_cases hsame : ConfigMode.localMode = mode
    · rw [if_pos hsame, if_pos hsame]
      show Prog.run exec (Config.mode.run >>= fun res => pure (some res)) store = _
      rw [Prog.run_bind, hmode]
      rfl
    · rw [if_neg hsame, if_neg hsame]
      rfl
  unfold BrokerServer.new
  rw [hrun]
  split_ifs <;> rfl

theorem Known.new (h : BrokerServer.new ∅ .localMode disk = some (.ok sv)) : sv.Known := by
  have hunused := LocalUnused.new h
  have hnew : BrokerServer.new ∅ .localMode disk = some (.ok ⟨{(Config.record.prop Config.MODE,
      Config.configMode.encode .localMode)}, .localMode, ∅, fun _ => none, disk⟩) := rfl
  refine ⟨hunused.mode_eq, fun v => ?_, hunused.localRecords, fun o id hid => ?_⟩
  · rw [hnew] at h
    cases h
    exact Finset.mem_singleton.trans (Prod.mk_right_injective _).eq_iff
  · rw [hunused.uncached] at hid
    cases hid

end New

end BrokerServer

/-- The overlay whose repo store a message is about. -/
def BrokerMessage.repoStoreOverlay : BrokerMessage → Option OverlayId
  | .v0 (.brokerOverlayMessage ⟨overlay, .brokerOverlayRequest r⟩) _ =>
    if r.content.usesRepoStore then some overlay else none
  | _ => none

/-- The overlay that a message asks to join. -/
def BrokerMessage.overlayJoin : BrokerMessage → Option (OverlayId × OverlayJoin)
  | .v0 (.brokerOverlayMessage ⟨overlay, .brokerOverlayRequest ⟨_, .overlayJoin j⟩⟩) _ =>
    some (overlay, j)
  | _ => none

/-! ## The life of a broker -/

/-- What happens to a broker. -/
inductive BrokerEvent
  /-- a message of a user who has authenticated, with what the outside world answers -/
  | request (E : Env) (user : PubKey) (msg : BrokerMessage)
  /-- the process ends, and the broker is started again on its disk -/
  | restart

namespace BrokerEvent

def isRequest : BrokerEvent → Bool
  | request .. => true
  | restart => false

def Opens : BrokerEvent → Prop
  | request E _ _ => E.Opens
  | restart => True

end BrokerEvent

namespace BrokerServer

section

variable (P : Primitives) (W : Wire)

/-- The broker after an event, and the reply if it is a request; none if the handler stops. -/
def event (sv : BrokerServer) :
    BrokerEvent → Option (Option (BrokerMessage × Option Later) × BrokerServer)
  | .request E user msg =>
    match (BrokerProtocolHandler.handleIncoming P W E ⟨user⟩ msg).run sv with
    | .ok (reply, sv') => some (some reply, sv')
    | .error _ => none
  | .restart =>
    match BrokerServer.new sv.store sv.mode sv.disk with
    | some (.ok sv') => some (none, sv')
    | _ => none

end

variable {P : Primitives} {W : Wire} {E : Env} {sv sv' sv₁ : BrokerServer} {user : PubKey}
  {msg : BrokerMessage} {ids : RepoStoreId → Prop} {α : Type}

theorem run_serve_bind (x : ServerM α) (reply : Except ProtocolError α →
    BrokerMessage × Option Later) : (HandlerM.serve x >>= fun res => pure (reply res)).run sv =
      (sv.serve x).elim (.error .broker) fun out => .ok (reply out.1, out.2) := by
  have hserve : HandlerM.serve x sv = (sv.serve x).elim (.error .broker) .ok := by
    unfold HandlerM.serve
    cases sv.serve x <;> rfl
  show HandlerM.serve x sv >>= _ = _
  rw [hserve]
  cases sv.serve x <;> rfl

/-- The handler runs an operation of the broker, and replies to its result. -/
def Runs (P : Primitives) (W : Wire) (E : Env) (user : PubKey) (msg : BrokerMessage)
    (Q : ∀ {α : Type}, ServerM α → (Except ProtocolError α → BrokerMessage × Option Later) →
      Prop) : Prop :=
  ∃ (α : Type) (x : ServerM α) (reply : Except ProtocolError α → BrokerMessage × Option Later),
    BrokerProtocolHandler.handleIncoming P W E ⟨user⟩ msg =
      HandlerM.serve x >>= (fun res => pure (reply res)) ∧ Q x reply

/-- The operation of a message about a repo store, and the reply if it fails. -/
def OnOverlay (E : Env) (o : OverlayId) {α : Type} (x : ServerM α)
    (reply : Except ProtocolError α → BrokerMessage × Option Later) : Prop :=
  (∃ f : StoreM ClockedStore (RepoResult α), x = getRepostoreFromOverlayId E o f) ∧
    ∀ e, (reply (.error e)).1.result = some e.toU16 ∧ (reply (.error e)).2 = none

theorem runs_onOverlay {o : OverlayId} (h : msg.repoStoreOverlay = some o) :
    Runs P W E user msg (OnOverlay E o) := by
  obtain ⟨⟨id, content⟩ | ⟨id, result⟩ | ⟨overlay, ⟨id, content⟩ | ⟨id, result, content⟩ | e⟩,
    padding⟩ | _ := msg
  · cases h
  · cases h
  · unfold BrokerMessage.repoStoreOverlay at h
    dsimp only at h
    split at h
    · rename_i huses
      cases h
      cases content with
      | blockGet b => exact ⟨_, _, _, rfl, ⟨_, rfl⟩, fun _ => ⟨rfl, rfl⟩⟩
      | branchSyncReq b => exact ⟨_, _, _, rfl, ⟨_, rfl⟩, fun _ => ⟨rfl, rfl⟩⟩
      | blockPut b => exact ⟨_, _, _, rfl, ⟨_, rfl⟩, fun _ => ⟨rfl, rfl⟩⟩
      | objectPin oid => exact ⟨_, _, _, rfl, ⟨_, rfl⟩, fun _ => ⟨rfl, rfl⟩⟩
      | objectUnpin oid => exact ⟨_, _, _, rfl, ⟨_, rfl⟩, fun _ => ⟨rfl, rfl⟩⟩
      | objectDel oid => exact ⟨_, _, _, rfl, ⟨_, rfl⟩, fun _ => ⟨rfl, rfl⟩⟩
      | _ => cases huses
    · cases h
  · cases h
  · cases h
  · cases h

/-- The operations that have nothing to do with a repo store. -/
inductive OnRecords (W : Wire) (E : Env) : {α : Type} → ServerM α → Prop
  | addUser (adminUser userId : PubKey) (sig : Sig) : OnRecords W E (addUser W adminUser userId sig)
  | join (user : PubKey) (o : OverlayId) (repoId : Option PubKey) (secret : SymKey)
      (peers : List PeerAdvert) : OnRecords W E (joinOverlay E user o repoId secret peers)
  | pure {α : Type} (a : α) : OnRecords W E (Pure.pure a)
  | throw {α : Type} (e : ProtocolError) : OnRecords W E (MonadExcept.throw e : ServerM α)

namespace OnRecords

variable {x : ServerM α} {res : Except ProtocolError α}

/-- They change the records only. -/
theorem frame (hx : OnRecords W E x) (hserve : sv.serve x = some (res, sv₁)) :
    ∃ store, sv₁ = { sv with store } := by
  cases hx with
  | addUser adminUser userId sig =>
    unfold BrokerServer.addUser at hserve
    split at hserve
    · cases hserve
      exact ⟨sv.store, rfl⟩
    · exact ⟨sv₁.store, serve_records hserve⟩
  | join user o repoId secret peers =>
    rw [serve_joinOverlay] at hserve
    exact ⟨sv₁.store, serve_records hserve⟩
  | pure a =>
    cases hserve
    exact ⟨sv.store, rfl⟩
  | throw e =>
    cases hserve
    exact ⟨sv.store, rfl⟩

/-- They have the same results on brokers that are the same. -/
theorem agrees (hx : OnRecords W E x) (h : SameOn ids sv sv') : Agrees ids sv sv' x := by
  cases hx with
  | addUser adminUser userId sig => exact h.agrees_addUser W adminUser userId sig
  | join user o repoId secret peers => exact h.agrees_join E user o repoId secret peers
  | pure a => exact h.agrees_pure a
  | throw e => exact h.agrees_throw e

end OnRecords

/-- The operation of a message that is not about a repo store. -/
theorem runs_of_repoStoreOverlay {Q : ∀ {α : Type}, ServerM α → Prop}
    (hnot : msg.repoStoreOverlay = none)
    (hadd : msg.overlayJoin = none → ∀ userId sig, Q (addUser W user userId sig))
    (hjoin : ∀ o j, msg.overlayJoin = some (o, j) →
      Q (joinOverlay E user o j.repoPubkey j.secret j.peers))
    (hpure : msg.overlayJoin = none → Q (pure () : ServerM Unit))
    (hthrow : msg.overlayJoin = none → ∀ e, Q (throw e : ServerM Unit)) :
    BrokerProtocolHandler.handleIncoming P W E ⟨user⟩ msg = throw .panic ∨
      Runs P W E user msg fun x _ => Q x := by
  obtain ⟨⟨id, content⟩ | ⟨id, result⟩ | ⟨overlay, ⟨id, content⟩ | ⟨id, result, content⟩ | e⟩,
    padding⟩ | _ := msg
  · refine .inr ⟨_, _, _, rfl, ?_⟩
    cases content with
    | addUser userId sig => exact hadd rfl userId sig
    | delUser | addClient | delClient => exact hpure rfl
  · exact .inr ⟨Unit, throw .invalidState,
      fun res => (BrokerProtocolHandler.prepareReplyBrokerMessage res id 20, none), rfl,
      hthrow rfl _⟩
  · refine .inr ?_
    unfold BrokerMessage.repoStoreOverlay at hnot
    dsimp only at hnot
    cases content with
    | overlayJoin j => exact ⟨_, _, _, rfl, hjoin overlay j rfl⟩
    | overlayConnect => exact ⟨_, _, _, rfl, hthrow rfl .overlayNotJoined⟩
    | blockGet | branchSyncReq | blockPut | objectPin | objectUnpin | objectDel => cases hnot
    | _ => exact ⟨_, _, _, rfl, hthrow rfl .invalidState⟩
  · exact .inr ⟨Unit, throw .invalidState,
      fun res => (BrokerProtocolHandler.prepareReplyBrokerOverlayMessage res id overlay none 20,
        none), rfl, hthrow rfl _⟩
  · exact .inl rfl
  · exact .inl rfl

theorem runs_onRecords (hnot : msg.repoStoreOverlay = none) :
    BrokerProtocolHandler.handleIncoming P W E ⟨user⟩ msg = throw .panic ∨
      Runs P W E user msg fun x _ => OnRecords W E x :=
  runs_of_repoStoreOverlay hnot (fun _ userId sig => .addUser user userId sig)
    (fun o j _ => .join user o j.repoPubkey j.secret j.peers) (fun _ => .pure ())
    fun _ e => .throw e

/-- What the handler does for an event, in terms of its operation. -/
theorem Runs.event_eq {Q : ∀ {α : Type}, ServerM α →
    (Except ProtocolError α → BrokerMessage × Option Later) → Prop} (h : Runs P W E user msg Q) :
    ∃ (α : Type) (x : ServerM α) (reply : Except ProtocolError α → BrokerMessage × Option Later),
      Q x reply ∧ ∀ sv, event P W sv (.request E user msg) =
        (sv.serve x).map fun out => (some (reply out.1), out.2) := by
  obtain ⟨α, x, reply, hrun, hQ⟩ := h
  refine ⟨α, x, reply, hQ, fun sv => ?_⟩
  unfold event
  dsimp only
  rw [hrun, run_serve_bind]
  cases sv.serve x <;> rfl

theorem event_panic (h : BrokerProtocolHandler.handleIncoming P W E ⟨user⟩ msg = throw .panic) :
    event P W sv (.request E user msg) = none := by
  unfold event
  dsimp only
  rw [h]
  rfl

theorem Runs.event_agrees (h : Runs P W E user msg fun x _ => Agrees ids sv sv' x)
    {out : Option (BrokerMessage × Option Later)}
    (hevent : event P W sv (.request E user msg) = some (out, sv₁)) :
    ∃ sv₁', event P W sv' (.request E user msg) = some (out, sv₁') ∧ SameOn ids sv₁ sv₁' := by
  obtain ⟨α, x, reply, hagrees, heq⟩ := h.event_eq
  rw [heq] at hevent ⊢
  obtain ⟨⟨res, sv₂⟩, hserve, hout⟩ := Option.map_eq_some_iff.mp hevent
  cases hout
  obtain ⟨sv₁', hserve', hsame⟩ := hagrees res _ hserve
  exact ⟨sv₁', by rw [hserve', Option.map_some], hsame⟩

/-- A request has the same reply from brokers that are the same, if they both have the repo store
that it is about. -/
theorem SameOn.event_request (h : SameOn ids sv sv') (hE : E.Opens)
    (hids : ∀ o, msg.repoStoreOverlay = some o → ∀ repo, sv.RepoOf o repo → ids (.repo repo))
    {out : Option (BrokerMessage × Option Later)}
    (hevent : event P W sv (.request E user msg) = some (out, sv₁)) :
    ∃ sv₁', event P W sv' (.request E user msg) = some (out, sv₁') ∧ SameOn ids sv₁ sv₁' := by
  cases hoverlay : msg.repoStoreOverlay with
  | none =>
    rcases @runs_onRecords P W E user msg hoverlay with hpanic | ⟨α, x, reply, hrun, hx⟩
    · rw [event_panic hpanic] at hevent
      cases hevent
    · exact Runs.event_agrees ⟨α, x, reply, hrun, hx.agrees h⟩ hevent
  | some o =>
    obtain ⟨α, x, reply, hrun, ⟨f, rfl⟩, -⟩ := @runs_onOverlay P W E user msg o hoverlay
    exact Runs.event_agrees ⟨α, _, reply, hrun, h.agrees_get hE (hids o hoverlay) f⟩ hevent

/-- A request about a repo store that is not looked at. -/
theorem SameOn.event_hidden (h : SameOn ids sv sv') (hE : E.Opens) {o : OverlayId} {repo : PubKey}
    (hoverlay : msg.repoStoreOverlay = some o) (hrepo : sv.RepoOf o repo) (hid : ¬ ids (.repo repo))
    {out : Option (BrokerMessage × Option Later)}
    (hevent : event P W sv (.request E user msg) = some (out, sv₁)) : SameOn ids sv₁ sv' := by
  obtain ⟨α, x, reply, ⟨⟨f, rfl⟩, -⟩, heq⟩ := (@runs_onOverlay P W E user msg o hoverlay).event_eq
  rw [heq] at hevent
  obtain ⟨⟨res, sv₂⟩, hserve, hout⟩ := Option.map_eq_some_iff.mp hevent
  cases hout
  exact h.hides_get hE hrepo hid hserve

/-- The broker that is started again has the same disk, and nothing in memory. -/
theorem Known.event_restart (h : sv.Known) : event P W sv .restart =
    some (none, ⟨sv.store, .localMode, ∅, fun _ => none, sv.disk⟩) := by
  unfold event
  dsimp only
  rw [h.mode_eq, new_recorded h.recorded]
  rfl

theorem SameOn.event_restart (h : SameOn ids sv sv') {out : Option (BrokerMessage × Option Later)}
    (hevent : event P W sv .restart = some (out, sv₁)) : SameOn ids sv₁ sv' := by
  rw [h.left.event_restart] at hevent
  cases hevent
  exact ⟨⟨rfl, h.left.recorded, h.left.localRecords, nofun⟩, h.right, h.store_eq, h.disk_eq⟩

/-- A restart is hidden from the users. -/
theorem unwinding_restart : Unwinding (event P W) (fun _ e => !e.isRequest) BrokerEvent.Opens
    (SameOn fun _ => True) where
  hides {_ _ e _ _} _ h hhidden hevent := by
    cases e with
    | restart => exact h.event_restart hevent
    | request => cases hhidden
  same {_ _ e _ _} hE h hhidden hevent := by
    cases e with
    | restart => cases hhidden
    | request E user msg => exact h.event_request hE (fun _ _ _ _ => trivial) hevent

/-- A restart never fails. -/
theorem restart_returns {e : BrokerEvent} (h : SameOn ids sv sv')
    (hhidden : (!e.isRequest) = true) : ∃ out sv₁, event P W sv e = some (out, sv₁) := by
  cases e with
  | restart => exact ⟨_, _, h.left.event_restart⟩
  | request => cases hhidden

/-- What is left of a run: the replies, and the disk. -/
def onDisk {β : Type} (out : β × BrokerServer) :
    β × LmdbBrokerStore × (RepoStoreId → LmdbRepoStore) :=
  (out.1, out.2.store, out.2.disk)

theorem SameOn.onDisk_eq {β : Type} {out out' : β} (hout : out = out')
    (h : SameOn (fun _ => True) sv sv') : onDisk (out, sv) = onDisk (out', sv') := by
  obtain rfl := hout
  simp only [onDisk, h.store_eq, Prod.mk.injEq, true_and]
  exact funext fun id => h.disk_eq id trivial

end BrokerServer

open BrokerServer in
/-- The users of a local broker see nothing of its restarts: a run has the replies, and leaves the
records and the repo stores, of the run of its requests alone, and stops if this one stops. After a
run the broker can be started again in its mode, and in no other one. -/
theorem restarts_invisible {P : Primitives} {W : Wire} {disk : RepoStoreId → LmdbRepoStore}
    {sv : BrokerServer} (hnew : BrokerServer.new ∅ .localMode disk = some (.ok sv))
    {events : List BrokerEvent} (hopens : ∀ e ∈ events, e.Opens) :
    (observe (event P W) (fun _ e => !e.isRequest) sv events).map onDisk =
      (observe (event P W) nothing sv (events.filter BrokerEvent.isRequest)).map onDisk ∧
    ∀ replies sv', observe (event P W) (fun _ e => !e.isRequest) sv events = some (replies, sv') →
      ∀ mode, BrokerServer.new sv'.store mode sv'.disk =
        some (if .localMode = mode then .ok ⟨sv'.store, .localMode, ∅, fun _ => none, sv'.disk⟩
          else .error .mismatchedMode) := by
  have hR : SameOn (fun _ => True) sv sv := ⟨.new hnew, .new hnew, rfl, fun _ _ => rfl⟩
  constructor
  · rw [← @purge_eq_filter _ _ _ (event P W) BrokerEvent.isRequest sv events]
    apply Option.ext
    intro out
    rw [Option.map_eq_some_iff, Option.map_eq_some_iff]
    constructor
    · rintro ⟨⟨replies, sv₁⟩, hrun, rfl⟩
      obtain ⟨sv₁', hrun', h⟩ := unwinding_restart.run hopens hR hrun
      exact ⟨(replies, sv₁'), hrun', (h.onDisk_eq rfl).symm⟩
    · rintro ⟨⟨replies, sv₁'⟩, hrun, rfl⟩
      obtain ⟨sv₁, hrun', h⟩ := unwinding_restart.run_conv SameOn.symm restart_returns
        (fun _ => rfl) hopens hR hrun
      exact ⟨(replies, sv₁), hrun', h.onDisk_eq rfl⟩
  · intro replies sv' hrun mode
    obtain ⟨_, -, h⟩ := unwinding_restart.run hopens hR hrun
    exact new_recorded h.left.recorded

namespace RestartedTwice

open TwoUsers TwoOverlays OverlayAccess BrokerServer

theorem opens_env : env.Opens := ⟨fun _ => rfl, fun _ _ => rfl⟩

/-- The user is added and joins the overlay, and the broker is restarted after each of them. -/
def life : List BrokerEvent :=
  let sig : Sig := ⟨.replicate 32 0, .replicate 32 0⟩
  let join : OverlayJoin := ⟨secret, some repo, []⟩
  [.request env alice (.v0 (.brokerRequest ⟨1, .addUser alice sig⟩) []), .restart,
    .request env alice (.v0 (.brokerOverlayMessage
      ⟨overlay, .brokerOverlayRequest ⟨2, .overlayJoin join⟩⟩) []), .restart]

theorem life_opens : ∀ e ∈ life, e.Opens := by
  simp [life, BrokerEvent.Opens, opens_env]

def P : Primitives := reference fun _ _ => false

theorem restarts_invisible_life :
    (observe (event P wire) (fun _ e => !e.isRequest) newBroker life).isSome ∧
    (observe (event P wire) (fun _ e => !e.isRequest) newBroker life).map onDisk =
      (observe (event P wire) nothing newBroker (life.filter BrokerEvent.isRequest)).map onDisk :=
  ⟨by decide +kernel, (restarts_invisible new_newBroker life_opens).1⟩

end RestartedTwice

end Lofire
