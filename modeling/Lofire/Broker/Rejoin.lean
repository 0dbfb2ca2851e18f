import Lofire.Broker.Adverts

/-!
# Joining an overlay again

A second `join_overlay` with the same arguments finds the overlay, and the adverts, peers and
membership that the first one has left, and changes nothing (`rejoin`). For this no listed peer may
have an advert but no version: such a peer is created, and its new advert is put beside the old one,
which may be read first (`not_rejoin`). The operations on records never leave such a peer.
-/

namespace Lofire

open Lib LmdbBrokerStore

variable {s s' : LmdbBrokerStore} {o : OverlayId} {a b : PeerAdvert} {peers : List PeerAdvert}

/-! ## The adverts that a join leaves -/

namespace Peer

/-- The peer of the advert has a record, with this advert or one that is not older. -/
structure Keeps (s : LmdbBrokerStore) (a : PeerAdvert) : Prop where
  «exists» : (Peer.record a.peer).Exists s
  newer : ∃ current, runOn (Peer.advert a.peer) s = (.ok current, s) ∧ a.version ≤ current.version

/-- A peer with an advert in the store has a record. -/
def PairedAt (s : LmdbBrokerStore) (id : PeerId) : Prop :=
  HasValue s ((Peer.record id).prop Peer.ADVERT) → (Peer.record id).Exists s

theorem runOn_advert_congr {id : PeerId} {current : PeerAdvert}
    (hsame : ∀ v, ((Peer.record id).prop Peer.ADVERT, v) ∈ s' ↔
      ((Peer.record id).prop Peer.ADVERT, v) ∈ s)
    (h : runOn (Peer.advert id) s = (.ok current, s)) :
    runOn (Peer.advert id) s' = (.ok current, s') := by
  obtain ⟨v, hfirst, hv⟩ := (Record.runOn_property_eq_ok _).mp h
  refine (Record.runOn_property_eq_ok _).mpr ⟨v, ?_, hv⟩
  rw [← hfirst]
  refine MultiMap.first_congr (Finset.ext fun v => ?_)
  rw [MultiMap.mem_values, MultiMap.mem_values]
  exact hsame v

theorem Keeps.of_frame {X : Entity → UInt8 → Prop} (h : Keeps s a) (hframe : SameExcept X s s')
    (hX : ∀ suffix, ¬ X (.peer a.peer) suffix) : Keeps s' a := by
  obtain ⟨current, hread, hle⟩ := h.newer
  exact ⟨(hframe.hasValue (.peer a.peer) Peer.VERSION (hX _)).mpr h.exists, current,
    runOn_advert_congr (hframe (.peer a.peer) Peer.ADVERT (hX _)) hread, hle⟩

theorem PairedAt.of_frame {X : Entity → UInt8 → Prop} {id : PeerId} (h : PairedAt s id)
    (hframe : SameExcept X s s') (hX : ∀ suffix, ¬ X (.peer id) suffix) : PairedAt s' id := by
  intro hadvert
  refine (hframe.hasValue (.peer id) Peer.VERSION (hX _)).mpr (h ?_)
  exact (hframe.hasValue (.peer id) Peer.ADVERT (hX _)).mp hadvert

/-- `update_or_create` with an advert that is kept changes nothing. -/
theorem Keeps.updateOrCreate (h : Keeps s a) : runOn (Peer.updateOrCreate a) s = (.ok (), s) := by
  obtain ⟨current, hread, hle⟩ := h.newer
  rw [RecordOp.runOn_peerUpdateOrCreate, if_pos h.exists, runOn_updateAdvert_of_read hread,
    if_pos hle]

/-- An update that succeeds has read an advert. -/
theorem exists_read_of_updateAdvert (h : runOn (Peer.updateAdvert a.peer a) s = (.ok (), s')) :
    ∃ current, runOn (Peer.advert a.peer) s = (.ok current, s) := by
  unfold updateAdvert at h
  rw [if_neg (by simp)] at h
  obtain ⟨current, s₁, hread, -⟩ := runOn_bind_eq_ok.mp h
  have hadapt : runOn ((Peer.advert a.peer).adapt fun _ => StorageError.backendError) s =
      ((runOn (Peer.advert a.peer) s).1.mapError fun _ => .backendError, s) := by
    show Prog.run exec ((Peer.advert a.peer).run >>= fun res =>
      pure (res.mapError fun _ => StorageError.backendError)) s = _
    rw [Prog.run_bind]
    have hsame : (runOn (Peer.advert a.peer) s).2 = s := (Peer.record a.peer).runOn_property_state
    exact congrArg _ hsame
  rw [hadapt] at hread
  cases hres : (runOn (Peer.advert a.peer) s).1 with
  | error e =>
    rw [hres] at hread
    cases hread
  | ok current => exact ⟨current, Prod.ext hres (Record.runOn_property_state _)⟩

/-- The advert that has replaced another one is kept, and those that are not newer. -/
theorem keeps_replacedAdvert (hexists : (Peer.record a.peer).Exists s) (hpeer : b.peer = a.peer)
    (hle : b.version ≤ a.version) :
    Keeps (insert ((Peer.record a.peer).prop Peer.ADVERT, Peer.peerAdvert.encode a)
      (s.deleteAll ((Peer.record a.peer).prop Peer.ADVERT))) b := by
  obtain ⟨v, hv⟩ := hasValue_iff.mp hexists
  constructor
  · rw [hpeer]
    exact hasValue_iff.mpr ⟨v, mem_replacedAdvert_version.mpr hv⟩
  · rw [hpeer]
    exact ⟨a, Record.runOn_property_single fun _ => mem_replacedAdvert, hle⟩

/-- What `update_or_create` leaves, where it succeeds. -/
theorem keeps_of_updateOrCreate (hrun : runOn (Peer.updateOrCreate a) s = (.ok (), s'))
    (hpaired : PairedAt s a.peer) :
    Keeps s' a ∧ ∀ b, Keeps s b → b.peer = a.peer → Keeps s' b := by
  rw [RecordOp.runOn_peerUpdateOrCreate] at hrun
  by_cases hexists : (Peer.record a.peer).Exists s
  · rw [if_pos hexists] at hrun
    obtain ⟨current, hread⟩ := exists_read_of_updateAdvert hrun
    rw [runOn_updateAdvert_of_read hread] at hrun
    by_cases hle : a.version ≤ current.version
    · rw [if_pos hle] at hrun
      cases hrun
      exact ⟨⟨hexists, current, hread, hle⟩, fun b hb _ => hb⟩
    · rw [if_neg hle] at hrun
      cases hrun
      refine ⟨keeps_replacedAdvert hexists rfl le_rfl, fun b hb hpeer => ?_⟩
      obtain ⟨current', hcurrent', hle'⟩ := hb.newer
      rw [hpeer, hread] at hcurrent'
      cases hcurrent'
      exact keeps_replacedAdvert hexists hpeer (hle'.trans (le_of_not_ge hle))
  · rw [if_neg hexists, Sound.runOn_create hexists] at hrun
    cases hrun
    have habsent : Absent s a.peer := by
      refine ⟨fun v hv => hexists (hasValue_iff.mpr ⟨v, hv⟩), fun v hv => hexists (hpaired ?_)⟩
      exact hasValue_iff.mpr ⟨v, hv⟩
    have hholds := habsent.create
    refine ⟨⟨hholds.exists, a, hholds.runOn_advert, le_rfl⟩, fun b hb hpeer => ?_⟩
    have hb := hb.exists
    rw [hpeer] at hb
    exact absurd hb hexists

end Peer

/-! ## The peers that a join leaves -/

/-- The advert is kept, and its peer is one of the overlay. -/
structure AddedPeer (o : OverlayId) (s : LmdbBrokerStore) (a : PeerAdvert) : Prop where
  keeps : Peer.Keeps s a
  listed : ((Overlay.record o).prop Overlay.PEER, Reference.pubKey.encode a.peer) ∈ s

/-- The store after `add_peer`. -/
theorem runOn_addPeer_eq_ok {id : PeerId} :
    runOn (Overlay.addPeer o id) s = (.ok (), s') ↔ (Overlay.record o).Exists s ∧
      s' = insert ((Overlay.record o).prop Overlay.PEER, Reference.pubKey.encode id) s := by
  unfold Overlay.addPeer
  rw [Record.runOn_add]
  by_cases hexists : (Overlay.record o).Exists s
  · rw [if_pos hexists, and_iff_right hexists, Prod.mk.injEq, and_iff_right rfl, eq_comm]
  · rw [if_neg hexists]
    refine iff_of_false ?_ fun h => hexists h.1
    rintro ⟨⟩

theorem sameExcept_insertPeer (id : PeerId) :
    SameExcept (fun e suffix => e = .overlay o ∧ suffix = Overlay.PEER) s
      (insert ((Overlay.record o).prop Overlay.PEER, Reference.pubKey.encode id) s) := by
  intro e suffix hX v
  refine Finset.mem_insert.trans (or_iff_right fun he => hX ?_)
  obtain ⟨he, hsuffix⟩ := @Entity.property_inj e (.overlay o) (some suffix) (some Overlay.PEER)
    (congrArg Prod.fst he)
  exact ⟨he, Option.some.inj hsuffix⟩

/-- What adding one peer leaves. -/
structure AddsPeer (o : OverlayId) (a : PeerAdvert) (s s' : LmdbBrokerStore) : Prop where
  added : AddedPeer o s' a
  keeps : ∀ b, AddedPeer o s b → AddedPeer o s' b
  paired : ∀ id, Peer.PairedAt s id → Peer.PairedAt s' id
  frame : SameExcept (AddedPeers o) s s'

theorem addsPeer {s₁ : LmdbBrokerStore} (hupdate : runOn (Peer.updateOrCreate a) s = (.ok (), s₁))
    (hadd : runOn (Overlay.addPeer o a.peer) s₁ = (.ok (), s'))
    (hpaired : Peer.PairedAt s a.peer) : AddsPeer o a s s' := by
  obtain ⟨-, rfl⟩ := runOn_addPeer_eq_ok.mp hadd
  have hframe₁ := Peer.updateOrCreate_frame a s
  rw [hupdate] at hframe₁
  have hframe₂ := sameExcept_insertPeer (s := s₁) (o := o) a.peer
  have hother : ∀ id suffix, ¬ (Entity.peer id = .overlay o ∧ suffix = Overlay.PEER) := by
    rintro id suffix ⟨⟨⟩, -⟩
  obtain ⟨hkeeps, hsame⟩ := Peer.keeps_of_updateOrCreate hupdate hpaired
  have hkeeps' := hkeeps.of_frame hframe₂ (hother a.peer)
  constructor
  · exact ⟨hkeeps', Finset.mem_insert_self ..⟩
  · intro b hb
    refine ⟨?_, Finset.mem_insert_of_mem ((hframe₁ (.overlay o) Overlay.PEER ?_ _).mpr hb.listed)⟩
    · by_cases hpeer : b.peer = a.peer
      · exact (hsame b hb.keeps hpeer).of_frame hframe₂ (hother b.peer)
      · exact (hb.keeps.of_frame hframe₁ fun _ he => hpeer (Entity.peer.inj he)).of_frame hframe₂
          (hother b.peer)
    · rintro ⟨⟩
  · intro id hid
    by_cases hpeer : id = a.peer
    · exact fun _ => hpeer ▸ hkeeps'.exists
    · exact (hid.of_frame hframe₁ fun _ he => hpeer (Entity.peer.inj he)).of_frame hframe₂
        (hother id)
  · exact (hframe₁.mono fun e _ he => .inl ⟨_, he⟩).trans (hframe₂.mono fun e _ he => .inr he)

/-- What `add_peers` leaves, where it succeeds. -/
theorem addedPeers_of_runOn (before : List PeerAdvert)
    (hrun : runOn (BrokerServer.addPeers o peers) s = (.ok (), s'))
    (hpaired : ∀ a ∈ peers, Peer.PairedAt s a.peer) (hbefore : ∀ b ∈ before, AddedPeer o s b) :
    (∀ b ∈ before ++ peers, AddedPeer o s' b) ∧ SameExcept (AddedPeers o) s s' := by
  induction peers generalizing s before with
  | nil =>
    cases hrun
    rw [List.append_nil]
    exact ⟨hbefore, .refl _ _⟩
  | cons a peers ih =>
    obtain ⟨⟨⟩, s₁, hupdate, hrun⟩ := runOn_bind_eq_ok.mp hrun
    obtain ⟨⟨⟩, s₂, hadd, hrun⟩ := runOn_bind_eq_ok.mp hrun
    rw [List.forall_mem_cons] at hpaired
    have hadds := addsPeer hupdate hadd hpaired.1
    have hbefore₂ : ∀ b ∈ before ++ [a], AddedPeer o s₂ b := by
      intro b hb
      obtain hb | hb := List.mem_append.mp hb
      · exact hadds.keeps b (hbefore b hb)
      · rw [List.mem_singleton.mp hb]
        exact hadds.added
    obtain ⟨hall, hframe⟩ := ih _ hrun (fun b hb => hadds.paired _ (hpaired.2 b hb)) hbefore₂
    rw [List.append_assoc] at hall
    exact ⟨hall, hadds.frame.trans hframe⟩

/-- Peers that have been added are added again without a change. -/
theorem runOn_addPeers_added (hexists : (Overlay.record o).Exists s)
    (h : ∀ b ∈ peers, AddedPeer o s b) :
    runOn (BrokerServer.addPeers o peers) s = (.ok (), s) := by
  induction peers with
  | nil => rfl
  | cons a peers ih =>
    rw [List.forall_mem_cons] at h
    have hadd : runOn (Overlay.addPeer o a.peer) s = (.ok (), s) :=
      runOn_addPeer_eq_ok.mpr ⟨hexists, (Finset.insert_eq_of_mem h.1.listed).symm⟩
    unfold BrokerServer.addPeers
    rw [runOn_bind_ok h.1.keeps.updateOrCreate, runOn_bind_ok hadd]
    exact ih h.2

/-- The end of a join that succeeds. -/
theorem runOn_addMember_eq_ok {user : UserId} :
    runOn (do
      Account.openId user
      Account.addOverlay user o) s = (.ok (), s') ↔
      (Account.record user).Exists s ∧ s' = addedMember user o s := by
  unfold Account.openId Account.addOverlay
  rw [runOn_bind, Record.runOn_openRecord]
  by_cases hexists : (Account.record user).Exists s
  · rw [if_pos hexists, and_iff_right hexists]
    show runOn ((Account.record user).add _ _) s = _ ↔ _
    rw [Record.runOn_add, if_pos hexists, Prod.mk.injEq, and_iff_right rfl, eq_comm]
    rfl
  · rw [if_neg hexists]
    refine iff_of_false ?_ fun h => hexists h.1
    rintro ⟨⟩

/-- A new member changes nothing of the peers. -/
theorem AddedPeer.addedMember (h : AddedPeer o s a) (user : UserId) :
    AddedPeer o (addedMember user o s) a where
  keeps := h.keeps.of_frame sameExcept_addedMember (by rintro suffix ⟨⟨⟩, -⟩)
  listed := Finset.mem_insert_of_mem h.listed

/-! ## The two joins -/

theorem runServer_ofStore_eq_ok {α : Type} {x : BrokerProgE α} {res : α} :
    runServer (ServerProg.ofStore x) s = (some (.ok res), s') ↔ runOn x s = (.ok res, s') := by
  rw [runServer_ofStore]
  obtain ⟨_ | res', s₁⟩ := runOn x s
  · refine iff_of_false ?_ ?_
    · rintro ⟨⟩
    · rintro ⟨⟩
  · constructor
    · rintro ⟨⟩
      rfl
    · rintro ⟨⟩
      rfl

/-- The properties that are written when an overlay is created. -/
def Creating (o : OverlayId) (e : Entity) (_ : UInt8) : Prop :=
  e = .overlay o ∨ ∃ id, e = .repoStoreInfo id

/-- An overlay that has been created exists. -/
theorem exists_of_createOverlay {E : Env} {mode : ConfigMode} {repoId : Option PubKey}
    {secret : SymKey} (hnot : ¬ (Overlay.record o).Exists s)
    (hrun : runServer (BrokerServer.createOverlay E mode o repoId secret) s = (some (.ok ()), s')) :
    (Overlay.record o).Exists s' ∧ SameExcept (Creating o) s s' := by
  unfold BrokerServer.createOverlay at hrun
  by_cases hrepo : mode = .localMode ∧ repoId = none
  · rw [if_pos hrepo] at hrun
    cases hrun
  rw [if_neg hrepo] at hrun
  obtain ⟨⟨⟩, s₁, hcreate, hrun⟩ := runServer_bind_eq_ok.mp hrun
  obtain ⟨id, s₂, hunwrap, hrun⟩ := runServer_bind_eq_ok.mp hrun
  have hs₂ : s₁ = s₂ := by
    cases hid : BrokerServer.computeRepostoreId mode o repoId with
    | none =>
      rw [hid] at hunwrap
      cases hunwrap
    | some id' =>
      rw [hid] at hunwrap
      cases hunwrap
      rfl
  subst hs₂
  obtain ⟨s₁', hcreate', hframe₁, hexists₁, -⟩ := runOn_overlayCreate hnot secret
    (if mode = .localMode then repoId else none) E.now
  rw [runServer_ofStore_eq_ok, hcreate'] at hcreate
  cases hcreate
  have hframe₂ := SameExcept.run (.repoStoreInfoCreate id ⟨E.randomBuf⟩) s₁
  rw [RecordOp.run, RecordOp.prog, RecordOp.run_returned,
    runServer_ofStore_eq_ok.mp hrun] at hframe₂
  refine ⟨(hframe₂.hasValue (.overlay o) Overlay.SECRET ?_).mpr hexists₁,
    (hframe₁.mono fun e _ hX => .inl hX.1).trans (hframe₂.mono fun e _ hX => .inr ⟨_, hX.1⟩)⟩
  rintro ⟨⟨⟩, -⟩

/-- A join that succeeds adds the peers to an overlay that exists by then. -/
theorem exists_of_joinOverlay {E : Env} {mode : ConfigMode} {user : PubKey}
    {repoId : Option PubKey} {secret : SymKey}
    (hrun : runServer (BrokerServer.joinOverlayProg E mode user o repoId secret peers) s =
      (some (.ok ()), s')) :
    ∃ s₁, (Overlay.record o).Exists s₁ ∧ SameExcept (Creating o) s s₁ ∧
      runOn (do
        BrokerServer.addPeers o peers
        Account.openId user
        Account.addOverlay user o) s₁ = (.ok (), s') := by
  have hopen : runServer (ServerProg.result (Overlay.openId o)) s =
      (some (.ok (if (Overlay.record o).Exists s then .ok () else .error .notFound)), s) := by
    rw [runServer_result, Overlay.openId, Record.runOn_openRecord]
  unfold BrokerServer.joinOverlayProg at hrun
  rw [runServer_bind_ok hopen] at hrun
  by_cases hexists : (Overlay.record o).Exists s
  · rw [if_pos hexists] at hrun
    exact ⟨s, hexists, .refl _ s, runServer_ofStore_eq_ok.mp hrun⟩
  · rw [if_neg hexists] at hrun
    obtain ⟨⟨⟩, s₁, hcreate, hrun⟩ := runServer_bind_eq_ok.mp hrun
    obtain ⟨hexists₁, hframe⟩ := exists_of_createOverlay hexists hcreate
    exact ⟨s₁, hexists₁, hframe, runServer_ofStore_eq_ok.mp hrun⟩

/-- The second join of an overlay changes nothing. -/
theorem runServer_rejoin {E : Env} {mode : ConfigMode} {user : PubKey} {repoId : Option PubKey}
    {secret : SymKey} (hpaired : ∀ a ∈ peers, Peer.PairedAt s a.peer)
    (hrun : runServer (BrokerServer.joinOverlayProg E mode user o repoId secret peers) s =
      (some (.ok ()), s')) (E' : Env) :
    runServer (BrokerServer.joinOverlayProg E' mode user o repoId secret peers) s' =
      (some (.ok ()), s') := by
  obtain ⟨s₁, hexists₁, hframe₁, hrun⟩ := exists_of_joinOverlay hrun
  obtain ⟨⟨⟩, s₂, hpeers, hrun⟩ := runOn_bind_eq_ok.mp hrun
  obtain ⟨haccount, rfl⟩ := runOn_addMember_eq_ok.mp hrun
  obtain ⟨hadded, hframe₂⟩ := addedPeers_of_runOn [] hpeers
    (fun a ha => (hpaired a ha).of_frame hframe₁ (by rintro suffix (⟨⟨⟩⟩ | ⟨_, ⟨⟩⟩)))
    (List.forall_mem_nil _)
  rw [List.nil_append] at hadded
  have hexists₂ : (Overlay.record o).Exists s₂ := by
    refine (hframe₂.hasValue (.overlay o) Overlay.SECRET ?_).mpr hexists₁
    rintro (⟨_, ⟨⟩⟩ | ⟨-, hsuffix⟩)
    exact absurd hsuffix (by decide)
  -- the membership is the last thing that is written
  have hframe₃ : SameExcept (fun e suffix => e = .account user ∧ suffix = Account.OVERLAY) s₂
      (addedMember user o s₂) := sameExcept_addedMember
  have hexists₃ : (Overlay.record o).Exists (addedMember user o s₂) :=
    (hframe₃.hasValue (.overlay o) Overlay.SECRET (by rintro ⟨⟨⟩, -⟩)).mpr hexists₂
  have haccount₃ : (Account.record user).Exists (addedMember user o s₂) :=
    (hframe₃.hasValue (.account user) Account.ADMIN
      (by rintro ⟨-, hsuffix⟩; exact absurd hsuffix (by decide))).mpr haccount
  have hagain : runOn (do
      BrokerServer.addPeers o peers
      Account.openId user
      Account.addOverlay user o) (addedMember user o s₂) = (.ok (), addedMember user o s₂) := by
    rw [runOn_bind_ok (runOn_addPeers_added hexists₃ fun b hb => (hadded b hb).addedMember user)]
    exact runOn_addMember_eq_ok.mpr
      ⟨haccount₃, (Finset.insert_eq_of_mem (Finset.mem_insert_self ..)).symm⟩
  have hopen : runServer (ServerProg.result (Overlay.openId o)) (addedMember user o s₂) =
      (some (.ok (.ok ())), addedMember user o s₂) := by
    rw [runServer_result, Overlay.openId, Record.runOn_openRecord, if_pos hexists₃]
  unfold BrokerServer.joinOverlayProg
  rw [runServer_bind_ok hopen]
  exact runServer_ofStore_eq_ok.mpr hagain

/-- A join of an overlay that has succeeded succeeds again with the same arguments, and the broker
stays as it is. -/
theorem rejoin {E E' : Env} {sv sv' : BrokerServer} {user : PubKey} {repoId : Option PubKey}
    {secret : SymKey} (hpaired : ∀ a ∈ peers, Peer.PairedAt sv.store a.peer)
    (hjoin : sv.serve (BrokerServer.joinOverlay E user o repoId secret peers) =
      some (.ok (), sv')) :
    sv'.serve (BrokerServer.joinOverlay E' user o repoId secret peers) = some (.ok (), sv') := by
  rw [BrokerServer.serve_joinOverlay, BrokerServer.serve_records_eq] at hjoin
  cases hrun : runServer (BrokerServer.joinOverlayProg E sv.mode user o repoId secret peers)
      sv.store with
  | mk res store =>
    rw [hrun] at hjoin
    cases res with
    | none => cases hjoin
    | some res =>
      cases hjoin
      rw [BrokerServer.serve_joinOverlay]
      exact BrokerServer.serve_records_run (runServer_rejoin hpaired hrun E')

/-- The operations on records never leave a peer with an advert and no record. -/
theorem Ledger.Reachable.pairedAt {l : Ledger} (h : l.Reachable) (id : PeerId) :
    Peer.PairedAt l.store id :=
  h.invariant.2 id

section JoinTwice

open TwoUsers Peer

/-- A broker with these records and the account of `alice`. -/
def withAccount (store : LmdbBrokerStore) : BrokerServer :=
  { broker with store := insert ((Account.record alice).prop Account.ADMIN, [0]) store }

def joinWith (peers : List PeerAdvert) (sv : BrokerServer) :
    Option (Except ProtocolError Unit × BrokerServer) :=
  sv.serve (BrokerServer.joinOverlay env alice overlay none ⟨.replicate 32 4⟩ peers)

/-- Three adverts of one peer. -/
theorem rejoin_threeAdverts : ∃ sv', joinWith [sampleAdvert 2, sampleAdvert 1, sampleAdvert 3]
      (withAccount ∅) = some (.ok (), sv') ∧
    joinWith [sampleAdvert 2, sampleAdvert 1, sampleAdvert 3] sv' = some (.ok (), sv') := by
  have hfirst : (joinWith [sampleAdvert 2, sampleAdvert 1, sampleAdvert 3] (withAccount ∅)).map
      (fun r => r.1.toOption) = some (some ()) := by decide +kernel
  obtain ⟨⟨res, sv'⟩, hjoin, hres⟩ := Option.map_eq_some_iff.mp hfirst
  cases res with
  | error e => cases hres
  | ok res =>
    refine ⟨sv', hjoin, rejoin (fun a _ hadvert => ?_) hjoin⟩
    obtain ⟨v, hv⟩ := hasValue_iff.mp hadvert
    have hprop := congrArg Prod.fst (Finset.mem_singleton.mp hv)
    obtain ⟨he, -⟩ :=
      @Entity.property_inj (.peer a.peer) (.account alice) (some Peer.ADVERT) (some Account.ADMIN)
        hprop
    cases he

/-- An advert of a peer without a record. -/
def leftover : Bytes × Bytes :=
  ((Peer.record (sampleAdvert 1).peer).prop Peer.ADVERT, Peer.peerAdvert.encode (sampleAdvert 1))

/-- The leftover advert is read again, and the second join replaces it. -/
theorem not_rejoin :
    ¬ ∀ (E E' : Env) (sv sv' : BrokerServer) (user : PubKey) (o : OverlayId)
      (repoId : Option PubKey) (secret : SymKey) (peers : List PeerAdvert),
      sv.serve (BrokerServer.joinOverlay E user o repoId secret peers) = some (.ok (), sv') →
      ∃ sv'', sv'.serve (BrokerServer.joinOverlay E' user o repoId secret peers) =
        some (.ok (), sv'') ∧ sv''.store = sv'.store := by
  intro hrejoin
  have hruns : ((joinWith [sampleAdvert 2] (withAccount {leftover})).bind fun r =>
      (joinWith [sampleAdvert 2] r.2).map fun r' =>
        (r.1.toOption, decide (leftover ∈ r.2.store), decide (leftover ∈ r'.2.store))) =
      some (some (), true, false) := by decide +kernel
  obtain ⟨⟨res, sv'⟩, hjoin, hmap⟩ := Option.bind_eq_some_iff.mp hruns
  obtain ⟨⟨res', sv''⟩, hagain, hfacts⟩ := Option.map_eq_some_iff.mp hmap
  simp only [Prod.mk.injEq, decide_eq_true_eq, decide_eq_false_iff_not] at hfacts
  obtain ⟨hres, hbefore, hafter⟩ := hfacts
  cases res with
  | error e => cases hres
  | ok res =>
    obtain ⟨sv₂, hsecond, hsame⟩ := hrejoin _ _ _ _ _ _ _ _ _ hjoin
    obtain rfl : sv'' = sv₂ := by
      have heq := hagain.symm.trans hsecond
      cases heq
      rfl
    rw [hsame] at hafter
    exact hafter hbefore

end JoinTwice

end Lofire
