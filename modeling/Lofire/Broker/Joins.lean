import Lofire.Broker.Users

/-!
# The overlays of one repo

A broker in local mode has one repo store for each repo, whatever the number of its overlays. What
`join_overlay` does to the records of an overlay that it creates is stated exactly. In the states
that are reached from a new broker by adding users and by joins that succeed, an overlay can be
joined if and only if it exists, or the repo store has no key yet (`joins_iff`): the second overlay
of a repo is refused, because `RepoStoreInfo::create` finds the key that the first one has left.
-/

namespace Lofire

open Lib LmdbBrokerStore

/-! ## The records of an overlay and of a repo store -/

/-- The overlay is one of the repo. -/
def Overlay.IsOf (s : LmdbBrokerStore) (o : OverlayId) (repo : PubKey) : Prop :=
  ∀ v, ((Overlay.record o).prop Overlay.REPO, v) ∈ s ↔ v = Reference.pubKey.encode repo

/-- The repo store has the encryption key. -/
def RepoStoreInfo.HasKey (s : LmdbBrokerStore) (id : RepoStoreId) (key : SymKey) : Prop :=
  ∀ v, ((RepoStoreInfo.record id).prop RepoStoreInfo.KEY, v) ∈ s ↔ v = Reference.symKey.encode key

section Reads

variable {s : LmdbBrokerStore} {r : Record} {suffix : UInt8} {α : Type}

/-- A property with one value is read. -/
theorem Record.runOn_property_single {c : Codec α} {a : α}
    (h : ∀ v, (r.prop suffix, v) ∈ s ↔ v = c.encode a) :
    runOn (r.property c suffix) s = (.ok a, s) := by
  have hfirst : s.first (r.prop suffix) = some (c.encode a) :=
    MultiMap.first_of_unique ((h _).mpr rfl) fun v hv => (h v).mp hv
  exact (Record.runOn_property_eq_ok _).mpr ⟨_, hfirst, Codec.fromBytes_encode c a⟩

theorem Overlay.IsOf.runOn_repo {o : OverlayId} {repo : PubKey} (h : Overlay.IsOf s o repo) :
    runOn (Overlay.repo o) s = (.ok repo, s) := Record.runOn_property_single h

theorem RepoStoreInfo.HasKey.runOn_key {id : RepoStoreId} {key : SymKey}
    (h : RepoStoreInfo.HasKey s id key) : runOn (RepoStoreInfo.key id) s = (.ok key, s) :=
  Record.runOn_property_single h

theorem RepoStoreInfo.HasKey.exists {id : RepoStoreId} {key : SymKey}
    (h : RepoStoreInfo.HasKey s id key) : (RepoStoreInfo.record id).Exists s :=
  hasValue_iff.mpr ⟨_, (h _).mpr rfl⟩

end Reads

/-! ## What a join does to them -/

section Join

variable {s s' : LmdbBrokerStore} {o : OverlayId} {user : UserId}

/-- The first value of a property. -/
theorem mem_insert_first {p v : Bytes} (hnot : ∀ v, (p, v) ∉ s) (v' : Bytes) :
    (p, v') ∈ insert (p, v) s ↔ v' = v := by
  rw [Finset.mem_insert, or_iff_left (hnot v')]
  exact ⟨fun h => congrArg Prod.snd h, fun h => congrArg (Prod.mk p) h⟩

/-- The repo of an overlay that has been created. -/
theorem isOf_overlayCreate (hnot : ¬ (Overlay.record o).Exists s)
    (hrepo : ∀ v, ((Overlay.record o).prop Overlay.REPO, v) ∉ s) (secret : SymKey) (repo : PubKey)
    (now : Timestamp) :
    Overlay.IsOf (runOn (Overlay.create o secret (some repo) now) s).2 o repo := by
  have hcheck : runOn (Overlay.record o).checkNew s = (.ok (), s) := by
    rw [Record.runOn_checkNew, if_neg hnot]
  unfold Overlay.create
  rw [runOn_bind_ok hcheck, runOn_bind_ok (Record.runOn_put _)]
  intro v
  refine (mem_insert_prop (by decide) v).trans (mem_insert_first (fun v hv => ?_) v)
  exact hrepo v ((mem_insert_prop (by decide) v).mp hv)

/-- The key of a repo store that has been created. -/
theorem hasKey_repoStoreInfoCreate {id : RepoStoreId} (hnot : ¬ (RepoStoreInfo.record id).Exists s)
    (key : SymKey) : RepoStoreInfo.HasKey (runOn (RepoStoreInfo.create id key) s).2 id key := by
  have hcheck : runOn (RepoStoreInfo.record id).checkNew s = (.ok (), s) := by
    rw [Record.runOn_checkNew, if_neg hnot]
  unfold RepoStoreInfo.create
  rw [runOn_bind_ok hcheck]
  exact mem_insert_first fun v hv => hnot (hasValue_iff.mpr ⟨v, hv⟩)

/-- The overlay and the repo store that a local broker creates for a join. -/
theorem runServer_createOverlay_local (E : Env) (hnot : ¬ (Overlay.record o).Exists s)
    (hrepo : ∀ v, ((Overlay.record o).prop Overlay.REPO, v) ∉ s) {repo : PubKey}
    (hkey : ¬ (RepoStoreInfo.record (.repo repo)).Exists s) (secret : SymKey) :
    ∃ s', runServer (BrokerServer.createOverlay E .localMode o (some repo) secret) s =
    (some (.ok ()), s') ∧
      SameExcept (fun e _ => e = .overlay o ∨ e = .repoStoreInfo (.repo repo)) s s' ∧
      (Overlay.record o).Exists s' ∧ Overlay.IsOf s' o repo ∧
      RepoStoreInfo.HasKey s' (.repo repo) ⟨E.randomBuf⟩ := by
  obtain ⟨s₁, hcreate, hframe₁, hexists₁, -⟩ := runOn_overlayCreate hnot secret (some repo) E.now
  have hisOf₁ := isOf_overlayCreate hnot hrepo secret repo E.now
  rw [hcreate] at hisOf₁
  have hkey₁ : ¬ (RepoStoreInfo.record (.repo repo)).Exists s₁ := fun he =>
    hkey ((hframe₁.hasValue (.repoStoreInfo _) RepoStoreInfo.KEY fun h => nomatch h.1).mp he)
  obtain ⟨s₂, hinfo, hframe₂⟩ := runOn_repoStoreInfoCreate hkey₁ ⟨E.randomBuf⟩
  have hhasKey₂ := hasKey_repoStoreInfoCreate hkey₁ ⟨E.randomBuf⟩
  rw [hinfo] at hhasKey₂
  have hoverlay : ∀ suffix, ¬ (Entity.overlay o = .repoStoreInfo (.repo repo) ∧
      suffix ∈ [RepoStoreInfo.KEY]) := fun suffix h => nomatch h.1
  refine ⟨s₂, ?_, (hframe₁.mono fun e _ h => .inl h.1).trans (hframe₂.mono fun e _ h => .inr h.1),
    (hframe₂.hasValue (.overlay o) _ (hoverlay _)).mpr hexists₁,
    fun v => (hframe₂ (.overlay o) _ (hoverlay _) v).trans (hisOf₁ v), hhasKey₂⟩
  have hcreate' : runServer (ServerProg.ofStore (Overlay.create o secret (some repo) E.now)) s =
      (some (.ok ()), s₁) := by
    rw [runServer_ofStore, hcreate]
    rfl
  unfold BrokerServer.createOverlay
  rw [if_neg nofun]
  dsimp only
  have hid : runServer (ServerProg.unwrap (BrokerServer.computeRepostoreId
    .localMode o (some repo))) s₁ =
      (some (.ok (.repo repo)), s₁) := rfl
  rw [if_pos rfl, runServer_bind_ok hcreate', runServer_bind_ok hid, runServer_ofStore, hinfo]
  rfl

/-- The overlay of a join is not created if the repo store has a key. -/
theorem runServer_createOverlay_refused (E : Env)
    (hnot : ¬ (Overlay.record o).Exists s) {repo : PubKey}
    (hkey : (RepoStoreInfo.record (.repo repo)).Exists s) (secret : SymKey) :
    ∃ s', runServer (BrokerServer.createOverlay E .localMode o (some repo) secret) s =
      (some (.error (.ofStorageError .backendError)), s') := by
  obtain ⟨s₁, hcreate, hframe₁, -⟩ := runOn_overlayCreate hnot secret (some repo) E.now
  have hcreate' : runServer (ServerProg.ofStore (Overlay.create o secret (some repo) E.now)) s =
      (some (.ok ()), s₁) := by
    rw [runServer_ofStore, hcreate]
    rfl
  have hkey₁ : (RepoStoreInfo.record (.repo repo)).Exists s₁ :=
    (hframe₁.hasValue (.repoStoreInfo _) RepoStoreInfo.KEY fun h => nomatch h.1).mpr hkey
  have hcheck : runOn (RepoStoreInfo.create (.repo repo) ⟨E.randomBuf⟩) s₁ =
      (.error .backendError, s₁) := by
    have hcheckNew :
        runOn (RepoStoreInfo.record (.repo repo)).checkNew s₁ = (.error .backendError, s₁) := by
      rw [Record.runOn_checkNew, if_pos hkey₁]
    unfold RepoStoreInfo.create
    rw [runOn_bind_error hcheckNew]
  refine ⟨s₁, ?_⟩
  unfold BrokerServer.createOverlay
  rw [if_neg nofun]
  dsimp only
  have hid : runServer (ServerProg.unwrap (BrokerServer.computeRepostoreId
    .localMode o (some repo))) s₁ =
      (some (.ok (.repo repo)), s₁) := rfl
  rw [if_pos rfl, runServer_bind_ok hcreate', runServer_bind_ok hid, runServer_ofStore, hcheck]
  rfl

/-- The properties that change when a user joins an overlay that exists. -/
def JoinsKnown (o : OverlayId) (user : UserId) (e : Entity) (suffix : UInt8) : Prop :=
  AddedPeers o e suffix ∨ e = .account user ∧ suffix = Account.OVERLAY

theorem not_joinsKnown_overlay {o' : OverlayId} {suffix : UInt8} (hne : suffix ≠ Overlay.PEER) :
    ¬ JoinsKnown o user (.overlay o') suffix := by
  rintro ((⟨_, hX⟩ | ⟨-, hX⟩) | ⟨hX, -⟩)
  · cases hX
  · exact hne hX
  · cases hX

theorem not_joinsKnown_repoStoreInfo {id : RepoStoreId} {suffix : UInt8} :
    ¬ JoinsKnown o user (.repoStoreInfo id) suffix := by
  rintro ((⟨_, hX⟩ | ⟨hX, -⟩) | ⟨hX, -⟩) <;> cases hX

/-- The end of `join_overlay` succeeds if the user has an account. -/
theorem runOn_addMember_result (h : Peer.Sound s)
    (hexists : (Overlay.record o).Exists s) (user : UserId)
    (peers : List PeerAdvert) : ∃ s', runOn (do
        BrokerServer.addPeers o peers
        Account.openId user
        Account.addOverlay user o) s =
      (if (Account.record user).Exists s then .ok () else .error .notFound, s') ∧
      Peer.Sound s' ∧ SameExcept (JoinsKnown o user) s s' := by
  obtain ⟨s₁, hsound, hframe, hrun⟩ := runOn_addMember h hexists user peers
  have hframe₁ : SameExcept (JoinsKnown o user) s s₁ := hframe.mono fun _ _ => .inl
  by_cases hacc : (Account.record user).Exists s
  · rw [if_pos hacc] at hrun ⊢
    exact ⟨_, hrun, hsound.of_others sameExcept_addedMember nofun,
      hframe₁.trans (sameExcept_addedMember.mono fun _ _ => .inr)⟩
  · rw [if_neg hacc] at hrun ⊢
    exact ⟨s₁, hrun, hsound, hframe₁⟩

end Join

/-! ## Reached states -/

/-- Every overlay is one of a repo, whose repo store has a key. -/
structure LocalRecords (s : LmdbBrokerStore) : Prop where
  peers : Peer.Sound s
  isOf : ∀ o, (Overlay.record o).Exists s → ∃ repo, Overlay.IsOf s o repo ∧
    (RepoStoreInfo.record (.repo repo)).Exists s
  noRepo : ∀ o, ¬ (Overlay.record o).Exists s → ∀ v, ((Overlay.record o).prop Overlay.REPO, v) ∉ s
  hasKey : ∀ id, (RepoStoreInfo.record id).Exists s → ∃ key, RepoStoreInfo.HasKey s id key

namespace LocalRecords

variable {s s' : LmdbBrokerStore} {o : OverlayId} {user : UserId} {repo : PubKey}

/-- The overlays and the repo stores are as before. -/
theorem of_frame (h : LocalRecords s) (hpeers : Peer.Sound s') {X : Entity → UInt8 → Prop}
    (hframe : SameExcept X s s') (hsecret : ∀ o, ¬ X (.overlay o) Overlay.SECRET)
    (hrepo : ∀ o, ¬ X (.overlay o) Overlay.REPO)
    (hkey : ∀ id, ¬ X (.repoStoreInfo id) RepoStoreInfo.KEY) : LocalRecords s' where
  peers := hpeers
  isOf o hexists := by
    obtain ⟨repo, hisOf, hinfo⟩ := h.isOf o ((hframe.hasValue _ _ (hsecret o)).mp hexists)
    exact ⟨repo, fun v => (hframe _ _ (hrepo o) v).trans (hisOf v),
      (hframe.hasValue _ _ (hkey _)).mpr hinfo⟩
  noRepo o hnot v hv := h.noRepo o (fun he => hnot ((hframe.hasValue _ _ (hsecret o)).mpr he)) v
    ((hframe _ _ (hrepo o) v).mp hv)
  hasKey id hexists := by
    obtain ⟨key, hkeyOf⟩ := h.hasKey id ((hframe.hasValue _ _ (hkey id)).mp hexists)
    exact ⟨key, fun v => (hframe _ _ (hkey id) v).trans (hkeyOf v)⟩

/-- A new overlay of a repo, with a key for the repo store. -/
theorem created (h : LocalRecords s) {key : SymKey} (hpeers : Peer.Sound s')
    (hframe : SameExcept (fun e _ => e = .overlay o ∨ e = .repoStoreInfo (.repo repo)) s s')
    (hexists : (Overlay.record o).Exists s') (hisOf : Overlay.IsOf s' o repo)
    (hkey : RepoStoreInfo.HasKey s' (.repo repo) key) : LocalRecords s' := by
  have hoverlay : ∀ o', o' ≠ o → ¬ (Entity.overlay o' = .overlay o ∨
      Entity.overlay o' = .repoStoreInfo (.repo repo)) := by
    rintro o' hne (he | he)
    · exact hne (Entity.overlay.inj he)
    · cases he
  have hinfo : ∀ id, id ≠ .repo repo → ¬ (Entity.repoStoreInfo id = .overlay o ∨
      Entity.repoStoreInfo id = .repoStoreInfo (.repo repo)) := by
    rintro id hne (he | he)
    · cases he
    · exact hne (Entity.repoStoreInfo.inj he)
  constructor
  · exact hpeers
  · intro o' hexists'
    by_cases ho : o' = o
    · subst ho
      exact ⟨repo, hisOf, hkey.exists⟩
    · obtain ⟨repo', hisOf', hinfo'⟩ :=
        h.isOf o' ((hframe.hasValue _ _ (hoverlay o' ho)).mp hexists')
      refine ⟨repo', fun v => (hframe _ _ (hoverlay o' ho) v).trans (hisOf' v), ?_⟩
      by_cases hrepo : RepoStoreId.repo repo' = .repo repo
      · rw [hrepo]
        exact hkey.exists
      · exact (hframe.hasValue _ _ (hinfo _ hrepo)).mpr hinfo'
  · intro o' hnot' v hv
    by_cases ho : o' = o
    · subst ho
      exact hnot' hexists
    · exact h.noRepo o' (fun he => hnot' ((hframe.hasValue _ _ (hoverlay o' ho)).mpr he)) v
        ((hframe _ _ (hoverlay o' ho) v).mp hv)
  · intro id hexists'
    by_cases hid : id = .repo repo
    · subst hid
      exact ⟨key, hkey⟩
    · obtain ⟨key', hkey'⟩ := h.hasKey id ((hframe.hasValue _ _ (hinfo id hid)).mp hexists')
      exact ⟨key', fun v => (hframe _ _ (hinfo id hid) v).trans (hkey' v)⟩

/-- A user joins an overlay that exists. -/
theorem join_known (h : LocalRecords s) (hexists : (Overlay.record o).Exists s) (E : Env)
    (repoId : Option PubKey) (secret : SymKey) (peers : List PeerAdvert) : ∃ s',
    runServer (BrokerServer.joinOverlayProg E .localMode user o repoId secret peers) s =
      (some (if (Account.record user).Exists s then .ok ()
        else .error (.ofStorageError .notFound)), s') ∧
      LocalRecords s' ∧ SameExcept (JoinsKnown o user) s s' := by
  have hopen : runServer (ServerProg.result (Overlay.openId o)) s = (some (.ok (.ok ())), s) := by
    rw [runServer_result, Overlay.openId, Record.runOn_openRecord, if_pos hexists]
  obtain ⟨s', hrun, hsound, hframe⟩ := runOn_addMember_result h.peers hexists user peers
  refine ⟨s', ?_, h.of_frame hsound hframe ?_ ?_ ?_, hframe⟩
  · unfold BrokerServer.joinOverlayProg
    rw [runServer_bind_ok hopen]
    dsimp only
    rw [runServer_ofStore, hrun]
    split <;> rfl
  · exact fun o' => not_joinsKnown_overlay (by decide)
  · exact fun o' => not_joinsKnown_overlay (by decide)
  · exact fun id => not_joinsKnown_repoStoreInfo

/-- A user joins an overlay that does not exist, of a repo whose repo store has no key. -/
theorem join_new (h : LocalRecords s) (hnot : ¬ (Overlay.record o).Exists s)
    (hkey : ¬ (RepoStoreInfo.record (.repo repo)).Exists s) (E : Env) (secret : SymKey)
    (peers : List PeerAdvert) : ∃ s',
    runServer (BrokerServer.joinOverlayProg E .localMode user o (some repo) secret peers) s =
      (some (if (Account.record user).Exists s then .ok ()
        else .error (.ofStorageError .notFound)), s') ∧
      LocalRecords s' ∧ Overlay.IsOf s' o repo ∧ (Overlay.record o).Exists s' := by
  have hopen : runServer (ServerProg.result (Overlay.openId o)) s =
      (some (.ok (.error .notFound)), s) := by
    rw [runServer_result, Overlay.openId, Record.runOn_openRecord, if_neg hnot]
  obtain ⟨s₁, hcreate, hframe₁, hexists₁, hisOf₁, hkey₁⟩ :=
    runServer_createOverlay_local E hnot (h.noRepo o hnot) hkey secret
  have hpeers₁ : Peer.Sound s₁ :=
    h.peers.of_others hframe₁ (by rintro id suffix (hX | hX) <;> cases hX)
  have h₁ : LocalRecords s₁ := h.created hpeers₁ hframe₁ hexists₁ hisOf₁ hkey₁
  have hopen₁ : runServer (ServerProg.result (Overlay.openId o)) s₁ =
      (some (.ok (.ok ())), s₁) := by
    rw [runServer_result, Overlay.openId, Record.runOn_openRecord, if_pos hexists₁]
  -- from the overlay that has been created on, the join is one of an overlay that exists
  obtain ⟨s', hrun, h', hframe'⟩ := h₁.join_known hexists₁ E (some repo) secret peers
  have hsame :
      runServer (BrokerServer.joinOverlayProg E .localMode user o (some repo) secret peers) s =
      runServer (BrokerServer.joinOverlayProg E .localMode user o (some repo) secret peers) s₁ := by
    unfold BrokerServer.joinOverlayProg
    rw [runServer_bind_ok hopen, runServer_bind_ok hopen₁]
    dsimp only
    rw [runServer_bind_ok hcreate]
  have haccount : (Account.record user).Exists s₁ ↔ (Account.record user).Exists s :=
    hframe₁.hasValue (.account user) Account.ADMIN (by rintro (hX | hX) <;> cases hX)
  refine ⟨s', ?_, h', fun v => (hframe' (.overlay o) Overlay.REPO ?_ v).trans (hisOf₁ v),
    (hframe'.hasValue (.overlay o) Overlay.SECRET ?_).mpr hexists₁⟩
  · rw [hsame, hrun]
    simp only [haccount]
  · exact not_joinsKnown_overlay (by decide)
  · exact not_joinsKnown_overlay (by decide)

/-- A user cannot join an overlay that does not exist, of a repo whose repo store has a key. -/
theorem join_refused (hnot : ¬ (Overlay.record o).Exists s)
    (hkey : (RepoStoreInfo.record (.repo repo)).Exists s) (E : Env) (secret : SymKey)
    (peers : List PeerAdvert) : ∃ s',
    runServer (BrokerServer.joinOverlayProg E .localMode user o (some repo) secret peers) s =
      (some (.error (.ofStorageError .backendError)), s') := by
  have hopen : runServer (ServerProg.result (Overlay.openId o)) s =
      (some (.ok (.error .notFound)), s) := by
    rw [runServer_result, Overlay.openId, Record.runOn_openRecord, if_neg hnot]
  obtain ⟨s', hcreate⟩ := runServer_createOverlay_refused E hnot hkey secret
  refine ⟨s', ?_⟩
  unfold BrokerServer.joinOverlayProg
  rw [runServer_bind_ok hopen]
  dsimp only
  rw [runServer_bind_error hcreate]

/-- An overlay that does not exist has no repo. -/
theorem not_runOn_repo (h : LocalRecords s) (hnot : ¬ (Overlay.record o).Exists s) :
    runOn (Overlay.repo o) s ≠ (.ok repo, s) := by
  intro hrepo
  obtain ⟨v, hfirst, -⟩ := (Record.runOn_property_eq_ok _).mp hrepo
  exact h.noRepo o hnot v (MultiMap.first_mem hfirst)

end LocalRecords

/-- The states of a local broker that are reached from a new one by adding users and by joins that
succeed. -/
inductive LocalReached (W : Wire) : BrokerServer → Prop
  | new {sv : BrokerServer} {disk : RepoStoreId → LmdbRepoStore}
      (h : BrokerServer.new ∅ .localMode disk = some (.ok sv)) : LocalReached W sv
  | addUser {sv sv' : BrokerServer} {res : Except ProtocolError Unit} (h : LocalReached W sv)
      (adminUser userId : PubKey) (sig : Sig)
      (hserve : sv.serve (BrokerServer.addUser W adminUser userId sig) = some (res, sv')) :
      LocalReached W sv'
  | join {sv sv' : BrokerServer} (h : LocalReached W sv) (E : Env)
    (user : PubKey) (overlayId : OverlayId)
      (repoId : Option PubKey) (secret : SymKey) (peers : List PeerAdvert)
      (hserve : sv.serve (BrokerServer.joinOverlay E user overlayId repoId secret peers) =
        some (.ok (), sv')) : LocalReached W sv'

namespace BrokerServer

variable {sv sv' : BrokerServer}

/-- No overlay has been accessed yet. -/
structure LocalUnused (sv : BrokerServer) : Prop where
  mode_eq : sv.mode = .localMode
  uncached : ∀ overlay, sv.overlayidToRepostore overlay = none
  localRecords : LocalRecords sv.store

theorem LocalUnused.of_store (h : sv.LocalUnused) {store : LmdbBrokerStore}
    (hrecords : LocalRecords store)
    (hsv : sv' = { sv with store }) : sv'.LocalUnused := by
  subst hsv
  exact ⟨h.mode_eq, h.uncached, hrecords⟩

end BrokerServer

theorem LocalRecords.empty : LocalRecords ∅ where
  peers := ⟨fun _ h => absurd h (by simp [HasValue, MultiMap.values]),
    fun _ _ hv => absurd hv (Finset.notMem_empty _)⟩
  isOf _ h := absurd h (by simp [HasValue, MultiMap.values])
  noRepo _ _ _ hv := absurd hv (Finset.notMem_empty _)
  hasKey _ h := absurd h (by simp [HasValue, MultiMap.values])

namespace BrokerServer

variable {sv sv' : BrokerServer}

/-- A new broker records its mode only. -/
theorem sameExcept_new {disk : RepoStoreId → LmdbRepoStore}
    (h : BrokerServer.new ∅ .localMode disk = some (.ok sv)) :
    SameExcept (fun e _ => e = .config) ∅ sv.store := by
  have hnew : BrokerServer.new ∅ .localMode disk = some (.ok ⟨{(Config.record.prop Config.MODE,
      Config.configMode.encode .localMode)}, .localMode, ∅, fun _ => none, disk⟩) := rfl
  rw [hnew] at h
  cases h
  intro e suffix hX v
  refine iff_of_false (fun hv => hX ?_) (Finset.notMem_empty _)
  have hprop : e.property (some suffix) = Entity.config.property (some Config.MODE) :=
    congrArg Prod.fst (Finset.mem_singleton.mp hv)
  exact (Entity.property_inj hprop).1

theorem LocalUnused.new {disk : RepoStoreId → LmdbRepoStore}
    (h : BrokerServer.new ∅ .localMode disk = some (.ok sv)) : sv.LocalUnused := by
  have hframe := sameExcept_new h
  have hnew : BrokerServer.new ∅ .localMode disk = some (.ok ⟨{(Config.record.prop Config.MODE,
      Config.configMode.encode .localMode)}, .localMode, ∅, fun _ => none, disk⟩) := rfl
  rw [hnew] at h
  cases h
  have hpeers := LocalRecords.empty.peers.of_others hframe nofun
  exact ⟨rfl, fun _ => rfl, LocalRecords.empty.of_frame hpeers hframe nofun nofun nofun⟩

theorem LocalUnused.addUser {W : Wire} (h : sv.LocalUnused) {adminUser userId : PubKey} {sig : Sig}
    {res : Except ProtocolError Unit}
    (hserve : sv.serve (BrokerServer.addUser W adminUser userId sig) = some (res, sv')) :
    sv'.LocalUnused := by
  have hframe := store_of_addUser hserve
  have hrecords : LocalRecords sv'.store :=
    h.localRecords.of_frame (h.localRecords.peers.of_others hframe nofun) hframe nofun nofun nofun
  refine h.of_store hrecords ?_
  unfold BrokerServer.addUser at hserve
  split at hserve
  · cases hserve
    rfl
  · exact serve_records hserve

variable {o : OverlayId} {user : UserId}

/-- The join of an overlay, as a program on the records. -/
theorem serve_join_local (hmode : sv.mode = .localMode) {E : Env} {repoId : Option PubKey}
    {secret : SymKey} {peers : List PeerAdvert} {res : Except ProtocolError Unit}
    {store : LmdbBrokerStore}
    (hrun : runServer (joinOverlayProg E .localMode user o repoId secret peers) sv.store =
      (some res, store)) :
    sv.serve (joinOverlay E user o repoId secret peers) = some (res, { sv with store }) := by
  rw [← hmode] at hrun
  rw [serve_joinOverlay, serve_records_run hrun]

theorem LocalUnused.serve_join (h : sv.LocalUnused) (E : Env)
    {repoId : Option PubKey} {secret : SymKey}
    {peers : List PeerAdvert} {res : Except ProtocolError Unit} {store : LmdbBrokerStore}
    (hrun : runServer (joinOverlayProg E .localMode user o repoId secret peers) sv.store =
      (some res, store)) :
    sv.serve (joinOverlay E user o repoId secret peers) = some (res, { sv with store }) :=
  serve_join_local h.mode_eq hrun

/-- A join that succeeds is one of an overlay that exists, or whose repo store has no key. -/
theorem LocalUnused.join (h : sv.LocalUnused) {E : Env} {repoId : Option PubKey} {secret : SymKey}
    {peers : List PeerAdvert}
    (hserve : sv.serve (joinOverlay E user o repoId secret peers) = some (.ok (), sv')) :
    sv'.LocalUnused := by
  by_cases hexists : (Overlay.record o).Exists sv.store
  · obtain ⟨store, hrun, hrecords, -⟩ := h.localRecords.join_known hexists E repoId secret peers
    rw [h.serve_join E hrun] at hserve
    simp only [Option.some.injEq, Prod.mk.injEq] at hserve
    exact h.of_store hrecords hserve.2.symm
  · cases repoId with
    | none =>
      have hopen : runServer (ServerProg.result (Overlay.openId o)) sv.store =
          (some (.ok (.error .notFound)), sv.store) := by
        rw [runServer_result, Overlay.openId, Record.runOn_openRecord, if_neg hexists]
      have hcreate : runServer (createOverlay E .localMode o none secret) sv.store =
          (some (.error .repoIdRequired), sv.store) := rfl
      have hrun : runServer (joinOverlayProg E .localMode user o none secret peers) sv.store =
          (some (.error .repoIdRequired), sv.store) := by
        unfold joinOverlayProg
        rw [runServer_bind_ok hopen]
        dsimp only
        rw [runServer_bind_error hcreate]
      rw [h.serve_join E hrun] at hserve
      cases hserve
    | some repo =>
      by_cases hkey : (RepoStoreInfo.record (.repo repo)).Exists sv.store
      · obtain ⟨store, hrun⟩ := LocalRecords.join_refused hexists hkey E secret peers
        rw [h.serve_join E hrun] at hserve
        cases hserve
      · obtain ⟨store, hrun, hrecords, -⟩ := h.localRecords.join_new hexists hkey E secret peers
        rw [h.serve_join E hrun] at hserve
        simp only [Option.some.injEq, Prod.mk.injEq] at hserve
        exact h.of_store hrecords hserve.2.symm

end BrokerServer

theorem LocalReached.localUnused {W : Wire} {sv : BrokerServer} (h : LocalReached W sv) :
    sv.LocalUnused := by
  induction h with
  | new h => exact .new h
  | addUser _ adminUser userId sig hserve ih => exact ih.addUser hserve
  | join _ E user overlayId repoId secret peers hserve ih => exact ih.join hserve

/-! ## The repo store of an overlay -/

namespace BrokerServer

variable {sv : BrokerServer} {o : OverlayId} {repo : PubKey} {key : SymKey}

/-- The requests on the overlay are served from the repo store, which is opened with the key. -/
def ServedFrom (sv : BrokerServer) (o : OverlayId) (id : RepoStoreId) (key : SymKey) : Prop :=
  ∀ (E : Env) (α : Type) (f : StoreM ClockedStore (RepoResult α)), E.createDirAll id = true →
    ∃ sv₁ : BrokerServer, sv₁.store = sv.store ∧ sv₁.disk = sv.disk ∧ sv₁.Resolves o id ∧
      sv.serve (getRepostoreFromOverlayId E o f) =
        if E.canOpen id key then sv₁.serve (onRepoStore E f id) else none

/-- A repo store that has a key is opened with it. -/
theorem serve_openOrCreateRepostore_of_hasKey {id : RepoStoreId}
    (hkey : RepoStoreInfo.HasKey sv.store id key)
    {E : Env} (hdir : E.createDirAll id = true) {α : Type}
    (f : StoreM ClockedStore (RepoResult α)) :
    sv.serve (openOrCreateRepostore E false id f) = if E.canOpen id key then
      { sv with repoStores := insert id sv.repoStores }.serve (onRepoStore E f id) else none := by
  have hopen : runServer (ServerProg.result (RepoStoreInfo.openId id)) sv.store =
      (some (.ok (.ok ())), sv.store) := by
    rw [runServer_result, RepoStoreInfo.openId, Record.runOn_openRecord, if_pos hkey.exists]
  unfold openOrCreateRepostore
  have hread : ∀ x : ServerProg SymKey, runServer x sv.store = (some (.ok key), sv.store) →
      sv.serve (records x) = some (.ok key, sv) := fun x hx => serve_records_run hx
  refine (serve_bind_of_ok (hread _ ?_) _).trans ?_
  · rw [runServer_bind_ok hopen]
    dsimp only
    rw [runServer_ofStore, hkey.runOn_key]
    rfl
  rw [hdir]
  cases hcan : E.canOpen id key with
  | false => rfl
  | true => exact serve_bind_of_ok (serve_modify _) _

/-- An overlay that has not been accessed is served from the repo store of its repo. -/
theorem LocalUnused.servedFrom (h : sv.LocalUnused) (hexists : (Overlay.record o).Exists sv.store)
    (hisOf : Overlay.IsOf sv.store o repo) (hkey : RepoStoreInfo.HasKey sv.store (.repo repo) key) :
    sv.ServedFrom o (.repo repo) key := by
  intro E α f hdir
  let cached : BrokerServer := { sv with
    overlayidToRepostore := Function.update sv.overlayidToRepostore o (some (.repo repo)) }
  have hmode : cached.mode = .localMode := h.mode_eq
  have hopen : runOn (Overlay.openId o) sv.store = (.ok (), sv.store) := by
    rw [Overlay.openId, Record.runOn_openRecord, if_pos hexists]
  have hrepo : sv.serve (records (ServerProg.ofStore do
      Overlay.openId o
      Overlay.repo o)) = some (.ok repo, sv) := by
    refine serve_records_run ?_
    rw [runServer_ofStore, runOn_bind_ok hopen, hisOf.runOn_repo]
    rfl
  have hget : sv.serve (getRepostoreFromOverlayId E o f) =
      cached.serve (openOrCreateRepostore E false (.repo repo) f) := by
    have hself : sv.serve (getThe BrokerServer : ServerM BrokerServer) = some (.ok sv, sv) := rfl
    unfold getRepostoreFromOverlayId
    rw [serve_bind_of_ok hself, h.mode_eq, h.uncached o]
    dsimp only
    rw [serve_bind_of_ok hrepo, serve_bind_of_ok (serve_modify _)]
  refine ⟨{ cached with repoStores := insert (.repo repo) sv.repoStores }, rfl, rfl,
    ⟨?_, Finset.mem_insert_self ..⟩, ?_⟩
  · simp only [repoStoreOf, hmode]
    exact Function.update_self ..
  · have hkey : RepoStoreInfo.HasKey cached.store (.repo repo) key := hkey
    rw [hget]
    exact serve_openOrCreateRepostore_of_hasKey hkey hdir f

end BrokerServer

/-- In the states that are reached by adding users and by joins that succeed, a user with an account
joins an overlay, which is then served from the repo store of its repo under the key that this has
had, if and only if the overlay exists or the repo store has no key yet. -/
theorem joins_iff {W : Wire} {sv : BrokerServer} (h : LocalReached W sv)
    {user : UserId} {o : OverlayId}
    {repo : PubKey} (hacc : (Account.record user).Exists sv.store)
    (hother : ∀ repo', runOn (Overlay.repo o) sv.store = (.ok repo', sv.store) → repo' = repo)
    (E : Env)
    (secret : SymKey) (peers : List PeerAdvert) :
    (∃ sv' key, sv.serve (BrokerServer.joinOverlay E user o (some repo) secret peers) =
      some (.ok (), sv') ∧
      sv'.ServedFrom o (.repo repo) key ∧ ∀ key',
        runOn (RepoStoreInfo.key (.repo repo)) sv.store = (.ok key', sv.store) → key' = key) ↔
    (Overlay.record o).Exists sv.store ∨ ¬ (RepoStoreInfo.record (.repo repo)).Exists sv.store := by
  have hun := h.localUnused
  constructor
  · rintro ⟨sv', key, hserve, -⟩
    by_contra hcon
    obtain ⟨hnot, hkey⟩ := not_or.mp hcon
    obtain ⟨store, hrun⟩ := LocalRecords.join_refused hnot (not_not.mp hkey) E secret peers
    rw [hun.serve_join E hrun] at hserve
    cases hserve
  · intro hcond
    by_cases hexists : (Overlay.record o).Exists sv.store
    · obtain ⟨store, hrun, hrecords, hframe⟩ :=
        hun.localRecords.join_known hexists E (some repo) secret peers
      rw [if_pos hacc] at hrun
      obtain ⟨repo', hisOf, hinfo⟩ := hun.localRecords.isOf o hexists
      obtain rfl : repo' = repo := hother repo' hisOf.runOn_repo
      obtain ⟨key, hkey⟩ := hun.localRecords.hasKey _ hinfo
      refine ⟨{ sv with store }, key, hun.serve_join E hrun, ?_, fun key' hkey' => ?_⟩
      · exact (hun.of_store hrecords rfl).servedFrom
          ((hframe.hasValue (.overlay o) Overlay.SECRET
            (not_joinsKnown_overlay (by decide))).mpr hexists)
          (fun v => (hframe (.overlay o) Overlay.REPO
            (not_joinsKnown_overlay (by decide)) v).trans (hisOf v))
          fun v => (hframe (.repoStoreInfo _) _ not_joinsKnown_repoStoreInfo v).trans (hkey v)
      · have hsame := hkey'.symm.trans hkey.runOn_key
        simp only [Prod.mk.injEq, Except.ok.injEq] at hsame
        exact hsame.1
    · have hnokey := hcond.resolve_left hexists
      obtain ⟨store, hrun, hrecords, hisOf, hexists'⟩ :=
        hun.localRecords.join_new hexists hnokey E secret peers
      rw [if_pos hacc] at hrun
      obtain ⟨repo', hisOf', hinfo⟩ := hrecords.isOf o hexists'
      obtain rfl : repo' = repo := Reference.pubKey.encode_inj ((hisOf _).mp ((hisOf' _).mpr rfl))
      obtain ⟨key, hkey⟩ := hrecords.hasKey _ hinfo
      refine ⟨{ sv with store }, key, hun.serve_join E hrun,
        (hun.of_store hrecords rfl).servedFrom hexists' hisOf hkey, fun key' hkey' => ?_⟩
      -- there was no key before
      obtain ⟨v, hfirst, -⟩ := (Record.runOn_property_eq_ok _).mp hkey'
      exact absurd (hasValue_iff.mpr ⟨v, MultiMap.first_mem hfirst⟩) hnokey

namespace TwoOverlays

/-! Two overlays of one repo -/

open TwoUsers

def repo : PubKey := ⟨.replicate 32 6⟩

/-- The public overlay of the repo, say; the other one is `overlay`. -/
def otherOverlay : OverlayId := ⟨.replicate 32 5⟩

def secret : SymKey := ⟨.replicate 32 4⟩

def newBroker : BrokerServer where
  store := {(Config.record.prop Config.MODE, Config.configMode.encode .localMode)}
  mode := .localMode
  repoStores := ∅
  overlayidToRepostore _ := none
  disk _ := .empty

/-- The broker with the account of `alice`. -/
def withAlice : BrokerServer := { newBroker with
  store := insert ((Account.record alice).prop Account.ADMIN, Codec.bool.encode false)
    newBroker.store }

theorem reached_withAlice : LocalReached wire withAlice := by
  have hnew : BrokerServer.new ∅ .localMode (fun _ => .empty) = some (.ok newBroker) := rfl
  have hserve : newBroker.serve (BrokerServer.addUser wire alice alice
      ⟨⟨.replicate 32 0, .replicate 32 0⟩⟩) = some (.ok (), withAlice) := rfl
  exact (LocalReached.new hnew).addUser alice alice _ hserve

end TwoOverlays

open TwoUsers TwoOverlays in
theorem joins_first_overlay : ∃ sv' key,
    withAlice.serve (BrokerServer.joinOverlay env alice overlay (some repo) secret []) =
      some (.ok (), sv') ∧ sv'.ServedFrom overlay (.repo repo) key ∧ ∀ key',
        runOn (RepoStoreInfo.key (.repo repo)) withAlice.store = (.ok key', withAlice.store) →
        key' = key := by
  have hfacts : (Account.record alice).Exists withAlice.store ∧
      ¬ (Overlay.record overlay).Exists withAlice.store ∧
      ¬ (RepoStoreInfo.record (.repo repo)).Exists withAlice.store := by decide +kernel
  obtain ⟨hacc, hnot, hkey⟩ := hfacts
  refine (joins_iff reached_withAlice hacc (fun repo' hrepo => ?_) env secret []).mpr (.inr hkey)
  exact (reached_withAlice.localUnused.localRecords.not_runOn_repo hnot hrepo).elim

open TwoUsers TwoOverlays in
/-- The second overlay of a repo cannot be joined. -/
theorem not_joins : ¬ ∀ W sv, LocalReached W sv → ∀ user o repo,
    (Account.record user).Exists sv.store →
    (∀ repo', runOn (Overlay.repo o) sv.store = (.ok repo', sv.store) → repo' = repo) →
    ∀ E secret peers,
    ∃ sv' key, sv.serve (BrokerServer.joinOverlay E user o (some repo) secret peers) =
    some (.ok (), sv') ∧
      sv'.ServedFrom o (.repo repo) key ∧ ∀ key',
        runOn (RepoStoreInfo.key (.repo repo)) sv.store = (.ok key', sv.store) → key' = key := by
  intro hall
  have hfacts : (withAlice.serve (BrokerServer.joinOverlay env alice overlay
    (some repo) secret [])).map
      (fun out => (out.1.toOption, decide ((Account.record alice).Exists out.2.store),
        decide ((Overlay.record otherOverlay).Exists out.2.store),
        decide ((RepoStoreInfo.record (.repo repo)).Exists out.2.store))) =
      some (some (), true, false, true) := by decide +kernel
  obtain ⟨⟨res, sv⟩, hserve, hfacts⟩ := Option.map_eq_some_iff.mp hfacts
  simp only [Prod.mk.injEq, decide_eq_true_eq, decide_eq_false_iff_not] at hfacts
  obtain ⟨hres, hacc, hnot, hkey⟩ := hfacts
  cases res with
  | error e => cases hres
  | ok u =>
    have hreached : LocalReached wire sv :=
      reached_withAlice.join env alice overlay (some repo) secret [] hserve
    obtain ⟨sv', key, hjoin, -⟩ :=
      hall wire sv hreached alice otherOverlay repo hacc (fun repo' hrepo =>
      (hreached.localUnused.localRecords.not_runOn_repo hnot hrepo).elim) env secret []
    obtain ⟨store, hrun⟩ := LocalRecords.join_refused hnot hkey env secret []
    rw [hreached.localUnused.serve_join env hrun] at hjoin
    cases hjoin

end Lofire
