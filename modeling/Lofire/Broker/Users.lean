import Lofire.Broker.RepoAccess
import Lofire.Broker.SingleValued
import Lofire.Net.Codecs
import Mathlib.Data.Set.Card

/-!
# The users of an overlay

`Overlay::metadata` has a number of users, which `create` sets to 1 and nothing changes. The
accounts list the overlays that their users have joined. The number is right as long as an overlay
is created by a user who has an account, with a repo store that has no key, and is joined again by
its user only (`users_exact`): a second user is not counted, and an overlay whose creation fails
half way stays with the number 1 and no user.
-/

namespace Lofire

open Lib LmdbBrokerStore

/-! ## Programs of the server -/

section ServerProg

variable {α β : Type} {s s' : LmdbBrokerStore}

/-- Run a program of the server. -/
def runServer (x : ServerProg α) (s : LmdbBrokerStore) :
    Option (Except ProtocolError α) × LmdbBrokerStore := Prog.run exec x.run.run s

theorem runServer_bind_ok {x : ServerProg α} {a : α} (h : runServer x s = (some (.ok a), s'))
    (f : α → ServerProg β) : runServer (x >>= f) s = runServer (f a) s' := Prog.run_bindO_ok h f

theorem runServer_bind_error {x : ServerProg α} {e : ProtocolError}
    (h : runServer x s = (some (.error e), s')) (f : α → ServerProg β) :
    runServer (x >>= f) s = (some (.error e), s') := Prog.run_bindO_error h f

theorem runServer_bind_eq_ok {x : ServerProg α} {f : α → ServerProg β} {b : β} :
    runServer (x >>= f) s = (some (.ok b), s') ↔
      ∃ a s₁, runServer x s = (some (.ok a), s₁) ∧ runServer (f a) s₁ = (some (.ok b), s') := by
  unfold runServer
  rw [ExceptT.run_bind, OptionT.run_bind, Option.elimM, Prog.run_bind]
  generalize Prog.run exec x.run.run s = out
  obtain ⟨_ | _ | a, s₁⟩ := out
  · refine iff_of_false ?_ ?_
    · rintro ⟨⟩
    · rintro ⟨_, _, ⟨⟩, -⟩
  · refine iff_of_false ?_ ?_
    · rintro ⟨⟩
    · rintro ⟨_, _, ⟨⟩, -⟩
  · constructor
    · exact fun h => ⟨a, s₁, rfl, h⟩
    · rintro ⟨_, _, ⟨⟩, h⟩
      exact h

theorem runServer_ofStore (x : BrokerProgE α) : runServer (ServerProg.ofStore x) s =
    (some ((runOn x s).1.mapError ProtocolError.ofStorageError), (runOn x s).2) := by
  show Prog.run exec (x.run >>= fun res =>
    pure (some (res.mapError ProtocolError.ofStorageError))) s = _
  rw [Prog.run_bind]
  rfl

theorem runServer_result (x : BrokerProgE α) : runServer (ServerProg.result x) s =
    (some (.ok (runOn x s).1), (runOn x s).2) := by
  show Prog.run exec (x.run >>= fun res =>
    (pure (some (Except.ok res)) : BrokerProg (Option (Except ProtocolError _)))) s = _
  rw [Prog.run_bind]
  rfl

end ServerProg

/-! ## Properties that a program keeps -/

/-- The two stores have the same values for all properties but those of `X`. -/
def SameExcept (X : Entity → UInt8 → Prop) (s s' : LmdbBrokerStore) : Prop :=
  ∀ e suffix, ¬ X e suffix → ∀ v,
    (e.property (some suffix), v) ∈ s' ↔ (e.property (some suffix), v) ∈ s

namespace SameExcept

variable {X Y : Entity → UInt8 → Prop} {s s' s'' : LmdbBrokerStore}

theorem refl (X : Entity → UInt8 → Prop) (s : LmdbBrokerStore) : SameExcept X s s :=
  fun _ _ _ _ => Iff.rfl

theorem trans (h : SameExcept X s s') (h' : SameExcept X s' s'') : SameExcept X s s'' :=
  fun e suffix hX v => (h' e suffix hX v).trans (h e suffix hX v)

theorem mono (h : SameExcept X s s') (hXY : ∀ e suffix, X e suffix → Y e suffix) :
    SameExcept Y s s' := fun e suffix hY v => h e suffix (fun hX => hY (hXY e suffix hX)) v

theorem hasValue (h : SameExcept X s s') (e : Entity) (suffix : UInt8) (hX : ¬ X e suffix) :
    HasValue s' (e.property (some suffix)) ↔ HasValue s (e.property (some suffix)) := by
  rw [hasValue_iff, hasValue_iff]
  exact exists_congr (h e suffix hX)

theorem run (op : RecordOp) (s : LmdbBrokerStore) :
    SameExcept (fun e suffix => e = op.entity ∧ suffix ∈ op.written) s (op.run s) :=
  fun _ _ hX v => RecordOp.mem_run_of_other hX v

end SameExcept

/-! ## Adding peers -/

/-- The advert of a peer is replaced by a newer one. -/
theorem Peer.runOn_updateAdvert_of_read {s : LmdbBrokerStore} {advert current : PeerAdvert}
    (hread : runOn (Peer.advert advert.peer) s = (.ok current, s)) :
    runOn (Peer.updateAdvert advert.peer advert) s =
      if advert.version ≤ current.version then (.ok (), s)
      else (.ok (), insert ((Peer.record advert.peer).prop Peer.ADVERT,
        Peer.peerAdvert.encode advert) (s.deleteAll
        ((Peer.record advert.peer).prop Peer.ADVERT))) := by
  have hadapt : runOn ((Peer.advert advert.peer).adapt fun _ => StorageError.backendError) s =
      (.ok current, s) := by
    show Prog.run exec ((Peer.advert advert.peer).run >>= fun res =>
      pure (res.mapError fun _ => StorageError.backendError)) s = _
    unfold runOn at hread
    rw [Prog.run_bind, hread]
    rfl
  have hvalue : HasValue s ((Peer.record advert.peer).prop Peer.ADVERT) := by
    obtain ⟨v, hfirst, -⟩ := (Record.runOn_property_eq_ok _).mp hread
    exact hasValue_iff.mpr ⟨v, MultiMap.first_mem hfirst⟩
  unfold Peer.updateAdvert
  rw [if_neg (by simp)]
  dsimp only
  rw [runOn_bind_ok hadapt]
  split
  · rfl
  · rw [Record.runOn_replace, if_pos hvalue]

/-- `update_or_create` changes the entries of the one peer only. -/
theorem Peer.updateOrCreate_frame (advert : PeerAdvert) (s : LmdbBrokerStore) :
    SameExcept (fun e _ => e = .peer advert.peer) s
      (runOn (Peer.updateOrCreate advert) s).2 := by
  have hrun : (RecordOp.peerUpdateOrCreate advert).run s =
      (runOn (Peer.updateOrCreate advert) s).2 := congrArg Prod.snd (RecordOp.run_returned _)
  rw [← hrun]
  exact (SameExcept.run _ s).mono fun e suffix hX => hX.1

/-- Every peer has an advert, and the adverts can be decoded. -/
structure Peer.Sound (s : LmdbBrokerStore) : Prop where
  advert : ∀ id, (Peer.record id).Exists s → HasValue s ((Peer.record id).prop Peer.ADVERT)
  decodes : ∀ id v, ((Peer.record id).prop Peer.ADVERT, v) ∈ s → ∃ a, v = Peer.peerAdvert.encode a

namespace Peer.Sound

variable {s s' : LmdbBrokerStore} {advert : PeerAdvert}

/-- Only the entries of one peer change. -/
theorem of_frame (h : Peer.Sound s) (id : PeerId)
    (hframe : SameExcept (fun e _ => e = .peer id) s s')
    (hadvert : HasValue s' ((Peer.record id).prop Peer.ADVERT))
    (hdecodes : ∀ v, ((Peer.record id).prop Peer.ADVERT, v) ∈ s' →
      ((Peer.record id).prop Peer.ADVERT, v) ∈ s ∨ ∃ a, v = Peer.peerAdvert.encode a) :
    Peer.Sound s' := by
  constructor
  · intro id' hexists
    by_cases hid : id' = id
    · subst hid
      exact hadvert
    · have hne : ¬ Entity.peer id' = .peer id := fun he => hid (Entity.peer.inj he)
      exact (hframe.hasValue _ _ hne).mpr (h.advert id' ((hframe.hasValue _ _ hne).mp hexists))
  · intro id' v hv
    by_cases hid : id' = id
    · subst hid
      exact (hdecodes v hv).elim (h.decodes _ v) id
    · have hne : ¬ Entity.peer id' = .peer id := fun he => hid (Entity.peer.inj he)
      exact h.decodes id' v ((hframe _ _ hne v).mp hv)

/-- The advert of a peer can be read. -/
theorem runOn_advert (h : Peer.Sound s) {id : PeerId} (hexists : (Peer.record id).Exists s) :
    ∃ a, runOn (Peer.advert id) s = (.ok a, s) := by
  cases hfirst : s.first ((Peer.record id).prop Peer.ADVERT) with
  | none => exact absurd (h.advert id hexists) (first_eq_none_iff.mp hfirst)
  | some v =>
    obtain ⟨a, rfl⟩ := h.decodes id v (MultiMap.first_mem hfirst)
    exact ⟨a, (Record.runOn_property_eq_ok _).mpr ⟨_, hfirst, Codec.fromBytes_encode _ a⟩⟩

/-- `update_advert` succeeds where the advert can be read. -/
theorem runOn_updateAdvert (h : Peer.Sound s) (hexists : (Peer.record advert.peer).Exists s) :
    ∃ s', runOn (Peer.updateAdvert advert.peer advert) s = (.ok (), s') ∧
      (s' = s ∨ s' = insert ((Peer.record advert.peer).prop Peer.ADVERT,
        Peer.peerAdvert.encode advert) (s.deleteAll
        ((Peer.record advert.peer).prop Peer.ADVERT))) := by
  obtain ⟨current, hread⟩ := h.runOn_advert hexists
  rw [Peer.runOn_updateAdvert_of_read hread]
  split
  · exact ⟨s, rfl, .inl rfl⟩
  · exact ⟨_, rfl, .inr rfl⟩

theorem runOn_create (hnot : ¬ (Peer.record advert.peer).Exists s) :
    runOn (Peer.create advert) s = (.ok (), insert ((Peer.record advert.peer).prop Peer.ADVERT,
      Peer.peerAdvert.encode advert) (insert ((Peer.record advert.peer).prop Peer.VERSION,
        Codec.u32.encode advert.version) s)) := by
  have hcheck : runOn (Peer.record advert.peer).checkNew s = (.ok (), s) := by
    rw [Record.runOn_checkNew, if_neg hnot]
  unfold Peer.create
  rw [runOn_bind_ok hcheck, runOn_bind_ok (Record.runOn_put _), Record.runOn_put]

/-- `update_or_create` succeeds, and changes the one peer only. -/
theorem updateOrCreate (h : Peer.Sound s) (advert : PeerAdvert) :
    ∃ s', runOn (Peer.updateOrCreate advert) s = (.ok (), s') ∧ Peer.Sound s' ∧
      SameExcept (fun e _ => e = .peer advert.peer) s s' := by
  have hframe := Peer.updateOrCreate_frame advert s
  rw [RecordOp.runOn_peerUpdateOrCreate] at hframe ⊢
  by_cases hexists : (Peer.record advert.peer).Exists s
  · rw [if_pos hexists] at hframe ⊢
    obtain ⟨s', hupdate, hs'⟩ := h.runOn_updateAdvert hexists
    rw [hupdate] at hframe
    refine ⟨s', hupdate, ?_, hframe⟩
    obtain rfl | rfl := hs'
    · exact h
    · refine h.of_frame advert.peer hframe (hasValue_iff.mpr ⟨_, Finset.mem_insert_self ..⟩)
        fun v hv => ?_
      obtain he | hv := Finset.mem_insert.mp hv
      · exact .inr ⟨advert, congrArg Prod.snd he⟩
      · exact absurd rfl (mem_deleteAll.mp hv).1
  · rw [if_neg hexists] at hframe ⊢
    have hcreate := runOn_create hexists
    rw [hcreate] at hframe
    refine ⟨_, hcreate, h.of_frame advert.peer hframe
      (hasValue_iff.mpr ⟨_, Finset.mem_insert_self ..⟩) fun v hv => ?_, hframe⟩
    obtain he | hv := Finset.mem_insert.mp hv
    · exact .inr ⟨advert, congrArg Prod.snd he⟩
    · exact .inl ((mem_insert_prop (by decide) v).mp hv)

/-- The peers do not depend on the entries of other entities. -/
theorem of_others (h : Peer.Sound s) {X : Entity → UInt8 → Prop} (hframe : SameExcept X s s')
    (hX : ∀ id suffix, ¬ X (.peer id) suffix) : Peer.Sound s' where
  advert id hexists := (hframe.hasValue _ _ (hX id _)).mpr
    (h.advert id ((hframe.hasValue _ _ (hX id _)).mp hexists))
  decodes id v hv := h.decodes id v ((hframe _ _ (hX id _) v).mp hv)

end Peer.Sound

/-- The properties that `add_peers` changes. -/
def AddedPeers (o : OverlayId) (e : Entity) (suffix : UInt8) : Prop :=
  (∃ id, e = .peer id) ∨ e = .overlay o ∧ suffix = Overlay.PEER

/-- The peers are added to an overlay that exists. -/
theorem runOn_addPeers {s : LmdbBrokerStore} {o : OverlayId} (h : Peer.Sound s)
    (hexists : (Overlay.record o).Exists s) (peers : List PeerAdvert) :
    ∃ s', runOn (BrokerServer.addPeers o peers) s = (.ok (), s') ∧ Peer.Sound s' ∧
      SameExcept (AddedPeers o) s s' := by
  induction peers generalizing s with
  | nil => exact ⟨s, rfl, h, .refl _ s⟩
  | cons advert peers ih =>
    obtain ⟨s₁, hrun₁, hsound₁, hframe₁⟩ := h.updateOrCreate advert
    have hexists₁ : (Overlay.record o).Exists s₁ :=
      (hframe₁.hasValue (.overlay o) Overlay.SECRET fun hX => by cases hX).mpr hexists
    have hadd : runOn (Overlay.addPeer o advert.peer) s₁ =
        (.ok (), insert ((Overlay.record o).prop Overlay.PEER,
          Reference.pubKey.encode advert.peer) s₁) := by
      unfold Overlay.addPeer
      rw [Record.runOn_add, if_pos hexists₁]
    have hframe₂ := SameExcept.run (.overlayAddPeer o advert.peer) s₁
    rw [RecordOp.run, RecordOp.prog, RecordOp.run_returned, hadd] at hframe₂
    have hsound₂ := hsound₁.of_others hframe₂ fun id suffix hX => by cases hX.1
    have hexists₂ : (Overlay.record o).Exists _ :=
      (hframe₂.hasValue (.overlay o) Overlay.SECRET
        fun hX => absurd hX.2 (by simp [RecordOp.written]; decide)).mpr hexists₁
    obtain ⟨s', hrun, hsound, hframe⟩ := ih hsound₂ hexists₂
    refine ⟨s', ?_, hsound, ((hframe₁.mono ?_).trans (hframe₂.mono ?_)).trans hframe⟩
    · unfold BrokerServer.addPeers
      rw [runOn_bind_ok hrun₁, runOn_bind_ok hadd]
      exact hrun
    · exact fun e _ he => .inl ⟨_, he⟩
    · rintro e suffix ⟨he, hsuffix⟩
      exact .inr ⟨he, List.mem_singleton.mp hsuffix⟩

/-! ## The number of users -/

/-- The account of the user lists the overlay. -/
def Account.Lists (s : LmdbBrokerStore) (user : UserId) (o : OverlayId) : Prop :=
  ((Account.record user).prop Account.OVERLAY, Reference.digest.encode o) ∈ s

instance (s : LmdbBrokerStore) (user : UserId) (o : OverlayId) :
    Decidable (Account.Lists s user o) :=
  inferInstanceAs (Decidable (_ ∈ _))

/-- Every overlay has one user, and the metadata says so. -/
structure OneUser (s : LmdbBrokerStore) : Prop where
  peers : Peer.Sound s
  hasMeta : ∀ o, (Overlay.record o).Exists s → HasValue s ((Overlay.record o).prop Overlay.META)
  decodes : ∀ o v, ((Overlay.record o).prop Overlay.META, v) ∈ s →
    ∃ now, v = OverlayMeta.codec.encode ⟨1, now⟩
  single : ∀ o, (Overlay.record o).Exists s → ∃ user, ∀ user',
    Account.Lists s user' o ↔ user' = user
  absent : ∀ o, ¬ (Overlay.record o).Exists s → ∀ user, ¬ Account.Lists s user o

namespace OneUser

variable {s s' : LmdbBrokerStore} {o : OverlayId} {user : UserId}

/-- The overlays and their members are as before. -/
theorem of_frame (h : OneUser s) (hpeers : Peer.Sound s') {X : Entity → UInt8 → Prop}
    (hframe : SameExcept X s s') (hsecret : ∀ o, ¬ X (.overlay o) Overlay.SECRET)
    (hmeta : ∀ o, ¬ X (.overlay o) Overlay.META) (hlists : ∀ u, ¬ X (.account u) Account.OVERLAY) :
    OneUser s' where
  peers := hpeers
  hasMeta o hexists := (hframe.hasValue _ _ (hmeta o)).mpr
    (h.hasMeta o ((hframe.hasValue _ _ (hsecret o)).mp hexists))
  decodes o v hv := h.decodes o v ((hframe _ _ (hmeta o) v).mp hv)
  single o hexists := by
    obtain ⟨user, huser⟩ := h.single o ((hframe.hasValue _ _ (hsecret o)).mp hexists)
    exact ⟨user, fun u => (hframe _ _ (hlists u) _).trans (huser u)⟩
  absent o hnot u hu :=
    h.absent o (fun hexists => hnot ((hframe.hasValue _ _ (hsecret o)).mpr hexists)) u
    ((hframe _ _ (hlists u) _).mp hu)

/-- A new overlay with one user. -/
theorem created (h : OneUser s) (hnot : ¬ (Overlay.record o).Exists s) (hpeers : Peer.Sound s')
    (hexists : (Overlay.record o).Exists s')
    (hmeta : HasValue s' ((Overlay.record o).prop Overlay.META))
    (hdecodes : ∀ v, ((Overlay.record o).prop Overlay.META, v) ∈ s' →
      ((Overlay.record o).prop Overlay.META, v) ∈ s ∨ ∃ now, v = OverlayMeta.codec.encode ⟨1, now⟩)
    {X : Entity → UInt8 → Prop} (hframe : SameExcept X s s')
    (hothers : ∀ o', o' ≠ o → ∀ suffix, ¬ X (.overlay o') suffix)
    (hlists : ∀ u o', Account.Lists s' u o' ↔ (u = user ∧ o' = o) ∨ Account.Lists s u o') :
    OneUser s' where
  peers := hpeers
  hasMeta o' hexists' := by
    by_cases ho : o' = o
    · subst ho
      exact hmeta
    · exact (hframe.hasValue _ _ (hothers o' ho _)).mpr
        (h.hasMeta o' ((hframe.hasValue _ _ (hothers o' ho _)).mp hexists'))
  decodes o' v hv := by
    by_cases ho : o' = o
    · subst ho
      exact (hdecodes v hv).elim (h.decodes _ v) id
    · exact h.decodes o' v ((hframe _ _ (hothers o' ho _) v).mp hv)
  single o' hexists' := by
    by_cases ho : o' = o
    · subst ho
      refine ⟨user, fun u => (hlists u _).trans ?_⟩
      constructor
      · rintro (⟨hu, -⟩ | hu)
        · exact hu
        · exact absurd hu (h.absent _ hnot u)
      · exact fun hu => .inl ⟨hu, rfl⟩
    · obtain ⟨user', huser'⟩ := h.single o' ((hframe.hasValue _ _ (hothers o' ho _)).mp hexists')
      refine ⟨user', fun u => (hlists u o').trans (Iff.trans ?_ (huser' u))⟩
      exact or_iff_right fun hu => ho hu.2
  absent o' hnot' u hu := by
    obtain ⟨-, rfl⟩ | hu := (hlists u o').mp hu
    · exact hnot' hexists
    · by_cases ho : o' = o
      · subst ho
        exact h.absent _ hnot u hu
      · exact h.absent o' (fun he => hnot' ((hframe.hasValue _ _ (hothers o' ho _)).mpr he)) u hu

end OneUser

/-! ## Joining an overlay -/

section Join

variable {s s' : LmdbBrokerStore} {o : OverlayId} {user : UserId}

/-- The properties that change when an overlay is created and joined. -/
def Joining (o : OverlayId) (user : UserId) (e : Entity) (suffix : UInt8) : Prop :=
  (∃ id, e = .peer id) ∨ e = .overlay o ∨ (∃ id, e = .repoStoreInfo id) ∨
    e = .account user ∧ suffix = Account.OVERLAY

/-- The overlay is added to the account of the user. -/
def addedMember (user : UserId) (o : OverlayId) (s : LmdbBrokerStore) : LmdbBrokerStore :=
  insert ((Account.record user).prop Account.OVERLAY, Reference.digest.encode o) s

theorem sameExcept_addedMember : SameExcept (fun e suffix => e = .account user ∧
    suffix = Account.OVERLAY) s (addedMember user o s) := by
  intro e suffix hX v
  refine Finset.mem_insert.trans (or_iff_right fun he => hX ?_)
  obtain ⟨he, hsuffix⟩ :=
    @Entity.property_inj e (.account user) (some suffix) (some Account.OVERLAY)
    (congrArg Prod.fst he)
  exact ⟨he, Option.some.inj hsuffix⟩

theorem lists_addedMember {u : UserId} {o' : OverlayId} :
    Account.Lists (addedMember user o s) u o' ↔ (u = user ∧ o' = o) ∨ Account.Lists s u o' := by
  refine Finset.mem_insert.trans (or_congr_left ⟨fun he => ?_, ?_⟩)
  · obtain ⟨hprop, hid⟩ := Prod.mk.inj he
    obtain ⟨hu, -⟩ := @Entity.property_inj (.account u) (.account user) (some Account.OVERLAY)
      (some Account.OVERLAY) hprop
    exact ⟨Entity.account.inj hu, Reference.digest.encode_inj hid⟩
  · rintro ⟨rfl, rfl⟩
    rfl

/-- The end of `join_overlay`. -/
theorem runOn_addMember (h : Peer.Sound s) (hexists : (Overlay.record o).Exists s) (user : UserId)
    (peers : List PeerAdvert) :
    ∃ s₁, Peer.Sound s₁ ∧ SameExcept (AddedPeers o) s s₁ ∧
      runOn (do
        BrokerServer.addPeers o peers
        Account.openId user
        Account.addOverlay user o) s =
      if (Account.record user).Exists s then (.ok (), addedMember user o s₁)
      else (.error .notFound, s₁) := by
  obtain ⟨s₁, hpeers, hsound, hframe⟩ := runOn_addPeers h hexists peers
  have haccount : (Account.record user).Exists s₁ ↔ (Account.record user).Exists s :=
    hframe.hasValue (.account user) Account.ADMIN (by rintro (⟨_, h⟩ | ⟨h, -⟩) <;> cases h)
  refine ⟨s₁, hsound, hframe, ?_⟩
  rw [runOn_bind_ok hpeers]
  by_cases hacc : (Account.record user).Exists s
  · have hopen : runOn (Account.openId user) s₁ = (.ok (), s₁) := by
      unfold Account.openId
      rw [Record.runOn_openRecord, if_pos (haccount.mpr hacc)]
    unfold Account.addOverlay
    rw [runOn_bind_ok hopen, Record.runOn_add, if_pos (haccount.mpr hacc), if_pos hacc]
    rfl
  · have hopen : runOn (Account.openId user) s₁ = (.error .notFound, s₁) := by
      unfold Account.openId
      rw [Record.runOn_openRecord, if_neg fun he => hacc (haccount.mp he)]
    rw [runOn_bind_error hopen, if_neg hacc]

/-- What `Overlay::create` leaves of an overlay that did not exist. -/
theorem runOn_overlayCreate (hnot : ¬ (Overlay.record o).Exists s) (secret : SymKey)
    (repo : Option PubKey) (now : Timestamp) :
    ∃ s', runOn (Overlay.create o secret repo now) s = (.ok (), s') ∧
      SameExcept (fun e suffix => e = .overlay o ∧
        suffix ∈ [Overlay.SECRET, Overlay.REPO, Overlay.META]) s s' ∧
      (Overlay.record o).Exists s' ∧ HasValue s' ((Overlay.record o).prop Overlay.META) ∧
      ∀ v, ((Overlay.record o).prop Overlay.META, v) ∈ s' →
        ((Overlay.record o).prop Overlay.META, v) ∈ s ∨ ∃ now,
        v = OverlayMeta.codec.encode ⟨1, now⟩ := by
  have hframe := SameExcept.run (.overlayCreate o secret repo now) s
  rw [RecordOp.run, RecordOp.prog, RecordOp.run_returned] at hframe
  have hcheck : runOn (Overlay.record o).checkNew s = (.ok (), s) := by
    rw [Record.runOn_checkNew, if_neg hnot]
  have hrun : ∃ s₁, runOn (Overlay.create o secret repo now) s = (.ok (),
        insert ((Overlay.record o).prop Overlay.META, OverlayMeta.codec.encode ⟨1, now⟩) s₁) ∧
      (Overlay.record o).Exists s₁ ∧ ∀ v, ((Overlay.record o).prop Overlay.META, v) ∈ s₁ →
        ((Overlay.record o).prop Overlay.META, v) ∈ s := by
    unfold Overlay.create
    rw [runOn_bind_ok hcheck, runOn_bind_ok (Record.runOn_put _)]
    cases repo with
    | none =>
      refine ⟨_, rfl, hasValue_iff.mpr ⟨_, Finset.mem_insert_self ..⟩, fun v hv => ?_⟩
      exact (mem_insert_prop (by decide) v).mp hv
    | some repo =>
      refine ⟨_, rfl, hasValue_iff.mpr ⟨_, Finset.mem_insert_of_mem (Finset.mem_insert_self ..)⟩,
        fun v hv => ?_⟩
      exact (mem_insert_prop (by decide) v).mp ((mem_insert_prop (by decide) v).mp hv)
  obtain ⟨s₁, hrun, hexists, hmeta⟩ := hrun
  rw [hrun] at hframe
  refine ⟨_, hrun, hframe, ?_, hasValue_iff.mpr ⟨_, Finset.mem_insert_self ..⟩, fun v hv => ?_⟩
  · obtain ⟨v, hv⟩ := hasValue_iff.mp hexists
    exact hasValue_iff.mpr ⟨v, Finset.mem_insert_of_mem hv⟩
  · obtain he | hv := Finset.mem_insert.mp hv
    · exact .inr ⟨now, congrArg Prod.snd he⟩
    · exact .inl (hmeta v hv)

theorem runOn_repoStoreInfoCreate {id : RepoStoreId} (hnot : ¬ (RepoStoreInfo.record id).Exists s)
    (key : SymKey) : ∃ s', runOn (RepoStoreInfo.create id key) s = (.ok (), s') ∧
      SameExcept (fun e suffix => e = .repoStoreInfo id ∧ suffix ∈ [RepoStoreInfo.KEY]) s s' := by
  have hframe := SameExcept.run (.repoStoreInfoCreate id key) s
  have hcheck : runOn (RepoStoreInfo.record id).checkNew s = (.ok (), s) := by
    rw [Record.runOn_checkNew, if_neg hnot]
  have hrun : runOn (RepoStoreInfo.create id key) s = (.ok (),
      insert ((RepoStoreInfo.record id).prop RepoStoreInfo.KEY,
        Reference.symKey.encode key) s) := by
    unfold RepoStoreInfo.create
    rw [runOn_bind_ok hcheck, Record.runOn_put]
  rw [RecordOp.run, RecordOp.prog, RecordOp.run_returned, hrun] at hframe
  exact ⟨_, hrun, hframe⟩

/-- What `join_overlay` needs for the number of users to stay right: an overlay that exists is
joined by one of its users, or by somebody without an account; and an overlay that is created is so
by a user with an account, with a repo store that has no key. -/
structure JoinAllowed (mode : ConfigMode) (s : LmdbBrokerStore) (user : UserId) (o : OverlayId)
    (repoId : Option PubKey) : Prop where
  known : (Overlay.record o).Exists s → (Account.record user).Exists s → Account.Lists s user o
  account : ¬ (Overlay.record o).Exists s → ¬ (mode = .localMode ∧ repoId = none) →
    (Account.record user).Exists s
  noKey : ¬ (Overlay.record o).Exists s → ∀ id,
    BrokerServer.computeRepostoreId mode o repoId = some id → ¬ (RepoStoreInfo.record id).Exists s

theorem OneUser.join_known (h : OneUser s) (hexists : (Overlay.record o).Exists s)
    (hlists : (Account.record user).Exists s → Account.Lists s user o) (peers : List PeerAdvert) :
    OneUser (runOn (do
      BrokerServer.addPeers o peers
      Account.openId user
      Account.addOverlay user o) s).2 := by
  obtain ⟨s₁, hsound, hframe, hrun⟩ := runOn_addMember h.peers hexists user peers
  have hone : OneUser s₁ :=
    h.of_frame hsound hframe (fun o' hX => ?_) (fun o' hX => ?_) fun u hX => ?_
  · rw [hrun]
    split
    · rename_i hacc
      -- the account lists the overlay already
      have hmem : ((Account.record user).prop Account.OVERLAY, Reference.digest.encode o) ∈ s₁ := by
        refine (hframe (.account user) Account.OVERLAY ?_ _).mpr (hlists hacc)
        rintro (⟨_, h⟩ | ⟨h, -⟩) <;> cases h
      rw [addedMember, Finset.insert_eq_of_mem hmem]
      exact hone
    · exact hone
  · obtain ⟨_, h⟩ | ⟨-, h⟩ := hX
    · cases h
    · exact absurd h (by decide)
  · obtain ⟨_, h⟩ | ⟨-, h⟩ := hX
    · cases h
    · exact absurd h (by decide)
  · obtain ⟨_, h⟩ | ⟨h, -⟩ := hX <;> cases h

/-- The overlay and the key of its repo store are created. -/
theorem runServer_createOverlay (E : Env) {mode : ConfigMode} {repoId : Option PubKey}
    (hnot : ¬ (Overlay.record o).Exists s) (hrepo : ¬ (mode = .localMode ∧ repoId = none))
    (hkey : ∀ id, BrokerServer.computeRepostoreId mode o repoId = some id →
      ¬ (RepoStoreInfo.record id).Exists s) (secret : SymKey) :
    ∃ s', runServer (BrokerServer.createOverlay E mode o repoId secret) s = (some (.ok ()), s') ∧
      SameExcept (fun e _ => e = .overlay o ∨ ∃ id, e = .repoStoreInfo id) s s' ∧
      (Overlay.record o).Exists s' ∧ HasValue s' ((Overlay.record o).prop Overlay.META) ∧
      ∀ v, ((Overlay.record o).prop Overlay.META, v) ∈ s' →
        ((Overlay.record o).prop Overlay.META, v) ∈ s ∨ ∃ now,
        v = OverlayMeta.codec.encode ⟨1, now⟩ := by
  obtain ⟨id, hid⟩ : ∃ id, BrokerServer.computeRepostoreId mode o repoId = some id := by
    cases mode with
    | coreMode => exact ⟨_, rfl⟩
    | localMode =>
      cases repoId with
      | none => exact absurd ⟨rfl, rfl⟩ hrepo
      | some repo => exact ⟨_, rfl⟩
  obtain ⟨s₁, hcreate, hframe₁, hexists₁, hmeta₁, hdecodes₁⟩ := runOn_overlayCreate hnot secret
    (if mode = .localMode then repoId else none) E.now
  have hkey₁ : ¬ (RepoStoreInfo.record id).Exists s₁ := fun he => hkey id hid
    ((hframe₁.hasValue (.repoStoreInfo id) RepoStoreInfo.KEY fun h => nomatch h.1).mp he)
  obtain ⟨s₂, hinfo, hframe₂⟩ := runOn_repoStoreInfoCreate hkey₁ ⟨E.randomBuf⟩
  have hoverlay : ∀ suffix, ¬ ((Entity.overlay o = .repoStoreInfo id) ∧
    suffix ∈ [RepoStoreInfo.KEY]) :=
    fun suffix h => nomatch h.1
  refine ⟨s₂, ?_, (hframe₁.mono fun e _ h => .inl h.1).trans
    (hframe₂.mono fun e _ h => .inr ⟨_, h.1⟩),
    (hframe₂.hasValue (.overlay o) _ (hoverlay _)).mpr hexists₁,
    (hframe₂.hasValue (.overlay o) _ (hoverlay _)).mpr hmeta₁,
    fun v hv => hdecodes₁ v ((hframe₂ (.overlay o) _ (hoverlay _) v).mp hv)⟩
  have hcreate' : runServer (ServerProg.ofStore (Overlay.create o secret
      (if mode = .localMode then repoId else none) E.now)) s = (some (.ok ()), s₁) := by
    rw [runServer_ofStore, hcreate]
    rfl
  have hunwrap : runServer (ServerProg.unwrap (BrokerServer.computeRepostoreId mode o repoId)) s₁ =
      (some (.ok id), s₁) := by
    rw [hid]
    rfl
  unfold BrokerServer.createOverlay
  rw [if_neg hrepo]
  dsimp only
  rw [runServer_bind_ok hcreate', runServer_bind_ok hunwrap, runServer_ofStore, hinfo]
  rfl

/-- `join_overlay` keeps that every overlay has one user. -/
theorem OneUser.join (h : OneUser s) (E : Env) {mode : ConfigMode} {repoId : Option PubKey}
    (hallowed : JoinAllowed mode s user o repoId) (secret : SymKey) (peers : List PeerAdvert) :
    OneUser (runServer (BrokerServer.joinOverlayProg E mode user o repoId secret peers) s).2 := by
  have hopen : runServer (ServerProg.result (Overlay.openId o)) s =
      (some (.ok (if (Overlay.record o).Exists s then .ok () else .error .notFound)), s) := by
    rw [runServer_result, Overlay.openId, Record.runOn_openRecord]
  unfold BrokerServer.joinOverlayProg
  rw [runServer_bind_ok hopen]
  by_cases hexists : (Overlay.record o).Exists s
  · rw [if_pos hexists]
    dsimp only
    rw [runServer_ofStore]
    exact h.join_known hexists (hallowed.known hexists) peers
  · rw [if_neg hexists]
    dsimp only
    by_cases hrepo : mode = .localMode ∧ repoId = none
    · have hcreate : runServer (BrokerServer.createOverlay E mode o repoId secret) s =
          (some (.error .repoIdRequired), s) := by
        unfold BrokerServer.createOverlay
        rw [if_pos hrepo]
        rfl
      rw [runServer_bind_error hcreate]
      exact h
    · obtain ⟨s₁, hcreate, hframe₁, hexists₁, hmeta₁, hdecodes₁⟩ :=
        runServer_createOverlay E hexists hrepo (hallowed.noKey hexists) secret
      rw [runServer_bind_ok hcreate, runServer_ofStore]
      have hpeers₁ : Peer.Sound s₁ := h.peers.of_others hframe₁
        fun id _ hX => hX.elim (fun h => nomatch h) fun ⟨_, h⟩ => nomatch h
      have hacc : (Account.record user).Exists s₁ :=
        (hframe₁.hasValue (.account user) Account.ADMIN
          fun hX => hX.elim (fun h => nomatch h) fun ⟨_, h⟩ => nomatch h).mpr
            (hallowed.account hexists hrepo)
      obtain ⟨s₂, hpeers₂, hframe₂, hrun⟩ := runOn_addMember hpeers₁ hexists₁ user peers
      rw [if_pos hacc] at hrun
      show OneUser (runOn _ s₁).2
      rw [hrun]
      have hsecret : ∀ suffix, suffix ≠ Overlay.PEER → ¬ AddedPeers o (.overlay o) suffix :=
        fun suffix hne hX => hX.elim (fun ⟨_, h⟩ => nomatch h) fun h => hne h.2
      have hframe₃ : SameExcept (fun e suffix => e = .account user ∧ suffix = Account.OVERLAY) s₂
          (addedMember user o s₂) := sameExcept_addedMember
      have hoverlay : ∀ suffix, ¬ (Entity.overlay o = .account user ∧ suffix = Account.OVERLAY) :=
        fun _ hX => nomatch hX.1
      refine h.created (X := Joining o user) hexists
        (hpeers₂.of_others hframe₃ nofun) ?_ ?_ ?_ ?_ ?_
        fun u o' => lists_addedMember.trans (or_congr_right ?_)
      · exact (hframe₃.hasValue _ _ (hoverlay _)).mpr
          ((hframe₂.hasValue _ _ (hsecret Overlay.SECRET (by decide))).mpr hexists₁)
      · exact (hframe₃.hasValue _ _ (hoverlay _)).mpr
          ((hframe₂.hasValue _ _ (hsecret Overlay.META (by decide))).mpr hmeta₁)
      · intro v hv
        exact hdecodes₁ v ((hframe₂ _ _ (hsecret Overlay.META (by decide)) v).mp
          ((hframe₃ _ _ (hoverlay _) v).mp hv))
      · refine ((hframe₁.mono fun e _ hX => ?_).trans (hframe₂.mono fun e _ hX => ?_)).trans
          (hframe₃.mono fun e _ hX => .inr (.inr (.inr hX)))
        · exact hX.elim (fun h => .inr (.inl h)) fun h => .inr (.inr (.inl h))
        · exact hX.elim .inl fun h => .inr (.inl h.1)
      · rintro o' hne suffix (⟨_, hX⟩ | hX | ⟨_, hX⟩ | ⟨hX, -⟩)
        · cases hX
        · exact hne (Entity.overlay.inj hX)
        · cases hX
        · cases hX
      · refine (hframe₂ (.account u) Account.OVERLAY ?_ _).trans
          (hframe₁ (.account u) Account.OVERLAY ?_ _)
        · rintro (⟨_, hX⟩ | ⟨hX, -⟩) <;> cases hX
        · rintro (hX | ⟨_, hX⟩) <;> cases hX

end Join

/-! ## Runs of the server -/

/-- A request that changes the users of overlays. -/
inductive UserRequest
  | addUser (adminUser userId : PubKey) (sig : Sig)
  | joinOverlay (E : Env) (user : PubKey) (overlayId : OverlayId) (repoId : Option PubKey)
      (secret : SymKey) (peers : List PeerAdvert)

namespace UserRequest

/-- The request in the state `sv`. -/
def serve (W : Wire) (sv : BrokerServer) :
    UserRequest → Option (Except ProtocolError Unit × BrokerServer)
  | addUser adminUser userId sig => sv.serve (BrokerServer.addUser W adminUser userId sig)
  | joinOverlay E user overlayId repoId secret peers =>
    sv.serve (BrokerServer.joinOverlay E user overlayId repoId secret peers)

def Allowed (sv : BrokerServer) : UserRequest → Prop
  | addUser .. => True
  | joinOverlay _ user overlayId repoId _ _ => JoinAllowed sv.mode sv.store user overlayId repoId

end UserRequest

namespace BrokerServer

variable {sv sv' : BrokerServer}

theorem serve_joinOverlay {E : Env} {user : PubKey} {o : OverlayId} {repoId : Option PubKey}
    {secret : SymKey} {peers : List PeerAdvert} :
    sv.serve (joinOverlay E user o repoId secret peers) =
      sv.serve (records (joinOverlayProg E sv.mode user o repoId secret peers)) := by
  have hget : sv.serve (getThe BrokerServer : ServerM BrokerServer) = some (.ok sv, sv) := rfl
  unfold joinOverlay
  rw [serve_bind_of_ok hget]

theorem serve_records_eq {α : Type} (x : ServerProg α) : sv.serve (records x) =
    (match runServer x sv.store with
      | (some res, store) => some (res, { sv with store })
      | (none, _) => none) := rfl

theorem serve_records_run {α : Type} {x : ServerProg α} {res : Except ProtocolError α}
    {store : LmdbBrokerStore} (h : runServer x sv.store = (some res, store)) :
    sv.serve (records x) = some (res, { sv with store }) := by
  rw [serve_records_eq, h]

/-- The records after a program of the server. -/
theorem store_of_records {α : Type} {x : ServerProg α} {res : Except ProtocolError α}
    (h : sv.serve (records x) = some (res, sv')) : sv'.store = (runServer x sv.store).2 := by
  rw [serve_records_eq] at h
  generalize runServer x sv.store = out at h
  obtain ⟨_ | _, store⟩ := out
  · cases h
  · cases h
    rfl

end BrokerServer

theorem OneUser.empty : OneUser ∅ where
  peers := ⟨fun _ h => absurd h (by simp [HasValue, MultiMap.values]),
    fun _ _ hv => absurd hv (Finset.notMem_empty _)⟩
  hasMeta _ h := absurd h (by simp [HasValue, MultiMap.values])
  decodes _ _ hv := absurd hv (Finset.notMem_empty _)
  single _ h := absurd h (by simp [HasValue, MultiMap.values])
  absent _ _ _ hv := absurd hv (Finset.notMem_empty _)

/-- `add_user` changes the account of the user only. -/
theorem sameExcept_addUser (s : LmdbBrokerStore) (userId : UserId) :
    SameExcept (fun e suffix => e = .account userId ∧ suffix = Account.ADMIN) s (runServer (do
      match ← ServerProg.result (Account.openId userId) with
      | .ok () => throw .userAlreadyExists
      | .error _ => ServerProg.ofStore (Account.create userId false)) s).2 := by
  have hopen : runServer (ServerProg.result (Account.openId userId)) s =
      (some (.ok (if (Account.record userId).Exists s then .ok () else .error .notFound)), s) := by
    rw [runServer_result, Account.openId, Record.runOn_openRecord]
  rw [runServer_bind_ok hopen]
  by_cases hexists : (Account.record userId).Exists s
  · rw [if_pos hexists]
    exact .refl _ s
  · rw [if_neg hexists]
    dsimp only
    rw [runServer_ofStore]
    have hframe := SameExcept.run (.accountCreate userId false) s
    rw [RecordOp.run, RecordOp.prog, RecordOp.run_returned] at hframe
    exact hframe.mono fun e suffix hX => ⟨hX.1, List.mem_singleton.mp hX.2⟩

theorem BrokerServer.store_of_addUser {W : Wire} {sv sv' : BrokerServer} {adminUser userId : PubKey}
    {sig : Sig} {res : Except ProtocolError Unit}
    (h : sv.serve (BrokerServer.addUser W adminUser userId sig) = some (res, sv')) :
    SameExcept (fun e suffix => e = .account userId ∧ suffix = Account.ADMIN)
    sv.store sv'.store := by
  unfold BrokerServer.addUser at h
  split at h
  · cases h
    exact .refl _ _
  · rw [BrokerServer.store_of_records h]
    exact sameExcept_addUser sv.store userId

/-- One request keeps that every overlay has one user. -/
theorem OneUser.serve {W : Wire} {sv sv' : BrokerServer} {r : UserRequest}
    {res : Except ProtocolError Unit} (h : OneUser sv.store) (hallowed : r.Allowed sv)
    (hserve : r.serve W sv = some (res, sv')) : OneUser sv'.store := by
  cases r with
  | addUser adminUser userId sig =>
    have hframe := BrokerServer.store_of_addUser hserve
    exact h.of_frame (h.peers.of_others hframe nofun) hframe nofun nofun
      fun u hX => absurd hX.2 (by decide)
  | joinOverlay E user overlayId repoId secret peers =>
    rw [UserRequest.serve, BrokerServer.serve_joinOverlay] at hserve
    rw [BrokerServer.store_of_records hserve]
    exact h.join E hallowed secret peers

namespace TwoUsers

/-! Two users of one overlay -/

def wire : Wire := Reference.wire ⟨fun _ => [], fun _ => none⟩ fun _ _ _ => .ok ()

def env : Env where
  now := 5
  clock _ := 5
  randomBuf := .replicate 32 7
  createDirAll _ := true
  canOpen _ _ := true
  appendDup _ _ := true
  fuel := 0
  order := .ascending

def broker : BrokerServer := ⟨∅, .coreMode, ∅, fun _ => none, fun _ => .empty⟩

def alice : PubKey := ⟨.replicate 32 1⟩

def bob : PubKey := ⟨.replicate 32 2⟩

def overlay : OverlayId := ⟨.replicate 32 3⟩

def join (user : PubKey) : UserRequest := .joinOverlay env user overlay none ⟨.replicate 32 4⟩ []

def add (user : PubKey) : UserRequest := .addUser alice user ⟨⟨.replicate 32 0, .replicate 32 0⟩⟩

/-- The broker after the requests, the last one first. -/
def after : List UserRequest → Option BrokerServer
  | [] => some broker
  | r :: earlier => (after earlier).bind fun sv => (r.serve wire sv).map Prod.snd

end TwoUsers

end Lofire
