import Lofire.Broker.Users
import Lofire.Lib.Faults

/-!
# Joins that fail

`join_overlay` writes in several transactions and returns as soon as an operation of the store
fails. A call of which an operation may fail leaves the store as it was if it fails before its first
write that changes something (`failed_join_unchanged_iff`); what was written before the failure
stays.
-/

namespace Lofire

open Lib LmdbBrokerStore

/-! ## Operations that fail -/

/-- The reply to a call that fails. -/
def BrokerCall.failed : (c : BrokerCall) → StorageError → c.Reply
  | .get .., e => Except.error e
  | .getAll .., e => Except.error e
  | .hasPropertyValue .., e => Except.error e
  | .put .., e => Except.error e
  | .replace .., e => Except.error e
  | .del .., e => Except.error e
  | .delPropertyValue .., e => Except.error e

namespace LmdbBrokerStore

variable {α β : Type} {fault : Fault StorageError} {s : LmdbBrokerStore} {n : ℕ}

/-- A call, which fails if it is its turn. -/
def execFaulty (fault : Fault StorageError) (c : BrokerCall) (w : Counted LmdbBrokerStore) :
    c.Reply × Counted LmdbBrokerStore :=
    Fault.execWith (S := brokerStore) BrokerCall.failed exec fault c w

theorem execFaulty_error (c : BrokerCall) {e : StorageError} (h : fault.error n = some e) :
    execFaulty fault c ⟨s, n⟩ = (c.failed e, ⟨s, n + 1⟩) :=
  Fault.execWith_of_error (S := brokerStore) BrokerCall.failed exec fault h

theorem execFaulty_ok (c : BrokerCall) (h : fault.error n = none) :
    execFaulty fault c ⟨s, n⟩ = ((exec c s).1, ⟨(exec c s).2, n + 1⟩) :=
  Fault.execWith_of_none (S := brokerStore) BrokerCall.failed exec fault h

/-- Run a program of which a call may fail. -/
def runProg (fault : Fault StorageError) (x : BrokerProg α) (w : Counted LmdbBrokerStore) :
    α × Counted LmdbBrokerStore := x.run (execFaulty fault) w

/-- Run a program that may fail, and of which a call may fail. -/
def runFaulty (fault : Fault StorageError) (x : BrokerProgE α) (w : Counted LmdbBrokerStore) :
    Except StorageError α × Counted LmdbBrokerStore := runProg fault x.run w

theorem runFaulty_bind_ok {x : BrokerProgE α} {a : α} {w w' : Counted LmdbBrokerStore}
    (h : runFaulty fault x w = (.ok a, w')) (f : α → BrokerProgE β) :
    runFaulty fault (x >>= f) w = runFaulty fault (f a) w' := Prog.run_bindE_ok h f

theorem runFaulty_bind_error {x : BrokerProgE α} {e : StorageError} {w w' : Counted LmdbBrokerStore}
    (h : runFaulty fault x w = (.error e, w')) (f : α → BrokerProgE β) :
    runFaulty fault (x >>= f) w = (.error e, w') := Prog.run_bindE_error h f

theorem runFaulty_lift_bind {x : BrokerProg α} {a : α} {w w' : Counted LmdbBrokerStore}
    (h : runProg fault x w = (a, w')) (f : α → BrokerProgE β) :
    runFaulty fault (liftM x >>= f) w = runFaulty fault (f a) w' := by
  refine (Prog.run_liftE_bind x f).trans ?_
  unfold runProg at h
  rw [h]
  rfl

theorem runFaulty_assoc {γ : Type} (x : BrokerProgE α)
    (f : α → BrokerProgE β) (g : β → BrokerProgE γ)
    (w : Counted LmdbBrokerStore) :
    runFaulty fault (x >>= f >>= g) w = runFaulty fault (x >>= fun a => f a >>= g) w := by
  obtain ⟨res, w', hx⟩ : ∃ res w', runFaulty fault x w = (res, w') := ⟨_, _, rfl⟩
  cases res with
  | error e => rw [runFaulty_bind_error (runFaulty_bind_error hx f) g, runFaulty_bind_error hx]
  | ok a =>
    obtain ⟨res', w'', hf⟩ : ∃ res' w'', runFaulty fault (f a) w' = (res', w'') := ⟨_, _, rfl⟩
    have hxf : runFaulty fault (x >>= f) w = (res', w'') := (runFaulty_bind_ok hx f).trans hf
    rw [runFaulty_bind_ok hx]
    cases res' with
    | error e => rw [runFaulty_bind_error hxf, runFaulty_bind_error hf]
    | ok b => rw [runFaulty_bind_ok hxf, runFaulty_bind_ok hf]

/-- What two programs keep, one after the other keeps. -/
theorem runFaulty_bind_keeps {I : LmdbBrokerStore → Prop}
    {x : BrokerProgE α} {f : α → BrokerProgE β}
    {w : Counted LmdbBrokerStore} (hx : I (runFaulty fault x w).2.state)
    (hf : ∀ a w', I w'.state → I (runFaulty fault (f a) w').2.state) :
    I (runFaulty fault (x >>= f) w).2.state := by
  obtain ⟨res, w', hrun⟩ : ∃ res w', runFaulty fault x w = (res, w') := ⟨_, _, rfl⟩
  rw [hrun] at hx
  cases res with
  | error e =>
    rw [runFaulty_bind_error hrun]
    exact hx
  | ok a =>
    rw [runFaulty_bind_ok hrun]
    exact hf a w' hx

end LmdbBrokerStore

namespace Record

variable {r : Record} {fault : Fault StorageError} {s : LmdbBrokerStore} {n : ℕ} {suffix : UInt8}
  {v : Bytes} {e : StorageError}

theorem runFaulty_get_error (suffix : UInt8) (h : fault.error n = some e) :
    runFaulty fault (r.get suffix) ⟨s, n⟩ = (.error e, ⟨s, n + 1⟩) :=
  execFaulty_error (.get r.PREFIX r.id (some suffix)) h

theorem runFaulty_get (suffix : UInt8) (h : fault.error n = none) :
    runFaulty fault (r.get suffix) ⟨s, n⟩ = ((runOn (r.get suffix) s).1, ⟨s, n + 1⟩) :=
  execFaulty_ok (.get r.PREFIX r.id (some suffix)) h

theorem runFaulty_put_error (h : fault.error n = some e) :
    runFaulty fault (r.put suffix v) ⟨s, n⟩ = (.error e, ⟨s, n + 1⟩) :=
  execFaulty_error (.put r.PREFIX r.id (some suffix) v) h

theorem runFaulty_put (h : fault.error n = none) :
    runFaulty fault (r.put suffix v) ⟨s, n⟩ = (.ok (), ⟨insert (r.prop suffix, v) s, n + 1⟩) :=
  execFaulty_ok (.put r.PREFIX r.id (some suffix) v) h

theorem runFaulty_replace_error (h : fault.error n = some e) :
    runFaulty fault (r.replace suffix v) ⟨s, n⟩ = (.error e, ⟨s, n + 1⟩) :=
  execFaulty_error (.replace r.PREFIX r.id (some suffix) v) h

theorem runFaulty_replace (h : fault.error n = none) (hvalue : HasValue s (r.prop suffix)) :
    runFaulty fault (r.replace suffix v) ⟨s, n⟩ =
      (.ok (), ⟨insert (r.prop suffix, v) (s.deleteAll (r.prop suffix)), n + 1⟩) := by
  have hrun : runFaulty fault (r.replace suffix v) ⟨s, n⟩ =
      ((runOn (r.replace suffix v) s).1, ⟨(runOn (r.replace suffix v) s).2, n + 1⟩) :=
    execFaulty_ok (.replace r.PREFIX r.id (some suffix) v) h
  rw [hrun, runOn_replace, if_pos hvalue]

/-- A record is found if the look for it does not fail. -/
theorem runProg_doesExist : runProg fault r.doesExist ⟨s, n⟩ =
    (decide (fault.error n = none ∧ r.Exists s), ⟨s, n + 1⟩) := by
  unfold doesExist BrokerStore.isOk runProg
  rw [Prog.run_bind]
  cases herr : fault.error n with
  | some e =>
    have hget := runFaulty_get_error (r := r) (s := s) (e := e) r.SUFFIX_FOR_EXIST_CHECK herr
    unfold runFaulty runProg at hget
    rw [hget]
    simp
    rfl
  | none =>
    have hget := runFaulty_get (r := r) (s := s) r.SUFFIX_FOR_EXIST_CHECK herr
    unfold runFaulty runProg at hget
    rw [hget, runOn_get]
    cases h : s.first (r.prop r.SUFFIX_FOR_EXIST_CHECK) with
    | none =>
      have hnot := first_eq_none_iff.mp h
      simp [hnot]
      rfl
    | some value =>
      have hexists : r.Exists s := hasValue_iff.mpr ⟨value, MultiMap.first_mem h⟩
      simp [hexists]
      rfl

theorem runFaulty_doesExist_bind {α : Type} (f : Bool → BrokerProgE α) :
    runFaulty fault (liftM r.doesExist >>= f) ⟨s, n⟩ =
      if fault.error n = none ∧ r.Exists s then runFaulty fault (f true) ⟨s, n + 1⟩
      else runFaulty fault (f false) ⟨s, n + 1⟩ := by
  rw [runFaulty_lift_bind runProg_doesExist]
  by_cases h : fault.error n = none ∧ r.Exists s
  · rw [if_pos h, decide_eq_true h]
  · rw [if_neg h, decide_eq_false h]

theorem runFaulty_openRecord : runFaulty fault r.openRecord ⟨s, n⟩ =
    (if fault.error n = none ∧ r.Exists s then .ok () else .error .notFound, ⟨s, n + 1⟩) := by
  unfold openRecord
  rw [runFaulty_doesExist_bind]
  split <;> rfl

theorem runFaulty_checkNew : runFaulty fault r.checkNew ⟨s, n⟩ =
    (if fault.error n = none ∧ r.Exists s then .error .backendError else .ok (), ⟨s, n + 1⟩) := by
  unfold checkNew
  rw [runFaulty_doesExist_bind]
  split <;> rfl

theorem runFaulty_add : runFaulty fault (r.add suffix v) ⟨s, n⟩ =
    if fault.error n = none ∧ r.Exists s then runFaulty fault (r.put suffix v) ⟨s, n + 1⟩
    else (.error .backendError, ⟨s, n + 1⟩) := by
  unfold add
  rw [runFaulty_doesExist_bind]
  split <;> rfl

/-- A property whose look-up does not fail is decoded. -/
theorem runFaulty_property {α : Type} {c : Codec α} (h : fault.error n = none) :
    runFaulty fault (r.property c suffix) ⟨s, n⟩ =
    ((runOn (r.property c suffix) s).1, ⟨s, n + 1⟩) := by
  have hget := runFaulty_get (r := r) (s := s) suffix h
  have hgetOn := r.runOn_get (s := s) suffix
  unfold property
  cases hfirst : s.first (r.prop suffix) with
  | none =>
    rw [hfirst] at hgetOn
    rw [hgetOn] at hget
    rw [runFaulty_bind_error hget, runOn_bind_error hgetOn]
  | some v =>
    rw [hfirst] at hgetOn
    rw [hgetOn] at hget
    rw [runFaulty_bind_ok hget, runOn_bind_ok hgetOn]
    cases c.fromBytes v <;> rfl

end Record

/-! ## Peers -/

namespace Peer

variable {fault : Fault StorageError} {s : LmdbBrokerStore} {n : ℕ}
  {advert : PeerAdvert} {e : StorageError}

/-- The advert of a peer that can be read. -/
def stored (s : LmdbBrokerStore) (id : PeerId) : Option PeerAdvert :=
  (s.first ((Peer.record id).prop Peer.ADVERT)).bind Peer.peerAdvert.fromBytes

theorem runOn_advert_toOption (id : PeerId) :
    (runOn (Peer.advert id) s).1.toOption = stored s id := by
  have hget := (Peer.record id).runOn_get (s := s) Peer.ADVERT
  unfold Peer.advert Record.property stored
  cases hfirst : s.first ((Peer.record id).prop Peer.ADVERT) with
  | none =>
    rw [hfirst] at hget
    rw [runOn_bind_error hget]
    rfl
  | some v =>
    rw [hfirst] at hget
    rw [runOn_bind_ok hget]
    cases h : Peer.peerAdvert.fromBytes v <;> simp [h] <;> rfl

theorem stored_eq_some {id : PeerId} {a : PeerAdvert} (h : stored s id = some a) :
    HasValue s ((Peer.record id).prop Peer.ADVERT) := by
  obtain ⟨v, hfirst, -⟩ := Option.bind_eq_some_iff.mp h
  exact hasValue_iff.mpr ⟨v, MultiMap.first_mem hfirst⟩

/-- The look-up of the stored advert, with its error. -/
def advertOrError (id : PeerId) : BrokerProgE PeerAdvert :=
  (Peer.advert id).adapt fun _ => StorageError.backendError

theorem runFaulty_advertOrError {id : PeerId} {res : Except StorageError PeerAdvert}
    {w : Counted LmdbBrokerStore} (h : runFaulty fault (Peer.advert id) ⟨s, n⟩ = (res, w)) :
    runFaulty fault (advertOrError id) ⟨s, n⟩ = (res.mapError fun _ => .backendError, w) := by
  show Prog.run (execFaulty fault) ((Peer.advert id).run >>= fun res =>
    pure (res.mapError fun _ => StorageError.backendError)) _ = _
  rw [Prog.run_bind]
  have h : Prog.run (execFaulty fault) (Peer.advert id).run ⟨s, n⟩ = (res, w) := h
  rw [h]
  rfl

theorem runFaulty_advert (id : PeerId) (h : fault.error n = none) :
    ∃ res, runFaulty fault (Peer.advert id) ⟨s, n⟩ = (res, ⟨s, n + 1⟩) ∧
    res.toOption = stored s id :=
  ⟨(runOn (Peer.advert id) s).1, Record.runFaulty_property h, runOn_advert_toOption id⟩

/-- A stored advert that cannot be read is an error. -/
theorem runFaulty_updateAdvert_unreadable (h : stored s advert.peer = none) :
    runFaulty fault (Peer.updateAdvert advert.peer advert) ⟨s, n⟩ =
    (.error .backendError, ⟨s, n + 1⟩) := by
  have hread : ∃ e, runFaulty fault (Peer.advert advert.peer) ⟨s, n⟩ = (.error e, ⟨s, n + 1⟩) := by
    cases herr : fault.error n with
    | some e => exact ⟨e, runFaulty_bind_error (Record.runFaulty_get_error Peer.ADVERT herr) _⟩
    | none =>
      obtain ⟨res, hrun, htoOption⟩ := runFaulty_advert (s := s) advert.peer herr
      rw [h] at htoOption
      cases res with
      | ok a => cases htoOption
      | error e => exact ⟨e, hrun⟩
  obtain ⟨e, hread⟩ := hread
  unfold Peer.updateAdvert
  rw [if_neg (by simp)]
  exact runFaulty_bind_error (runFaulty_advertOrError hread) _

theorem runFaulty_updateAdvert_error (h : fault.error n = some e) :
    runFaulty fault (Peer.updateAdvert advert.peer advert) ⟨s, n⟩ =
    (.error .backendError, ⟨s, n + 1⟩) := by
  have hread : runFaulty fault (Peer.advert advert.peer) ⟨s, n⟩ = (.error e, ⟨s, n + 1⟩) :=
    runFaulty_bind_error (Record.runFaulty_get_error Peer.ADVERT h) _
  unfold Peer.updateAdvert
  rw [if_neg (by simp)]
  exact runFaulty_bind_error (runFaulty_advertOrError hread) _

/-- A stored advert is replaced by a newer one. -/
theorem runFaulty_updateAdvert {current : PeerAdvert}
    (hstored : stored s advert.peer = some current)
    (h : fault.error n = none) : runFaulty fault (Peer.updateAdvert advert.peer advert) ⟨s, n⟩ =
      if advert.version ≤ current.version then (.ok (), ⟨s, n + 1⟩)
      else runFaulty fault ((Peer.record advert.peer).replace Peer.ADVERT
        (Peer.peerAdvert.encode advert))
        ⟨s, n + 1⟩ := by
  have hread : runFaulty fault (Peer.advert advert.peer) ⟨s, n⟩ = (.ok current, ⟨s, n + 1⟩) := by
    obtain ⟨res, hrun, htoOption⟩ := runFaulty_advert (s := s) advert.peer h
    rw [hstored] at htoOption
    cases res with
    | ok a =>
      cases htoOption
      exact hrun
    | error e => cases htoOption
  unfold Peer.updateAdvert
  rw [if_neg (by simp)]
  refine (runFaulty_bind_ok (runFaulty_advertOrError hread) _).trans ?_
  by_cases hle : advert.version ≤ current.version
  · rw [if_pos hle, if_pos hle]
    rfl
  · rw [if_neg hle, if_neg hle]

/-- A peer that is found is not created. -/
theorem runFaulty_create_found (h : fault.error n = none)
    (hexists : (Peer.record advert.peer).Exists s) :
    runFaulty fault (Peer.create advert) ⟨s, n⟩ = (.error .backendError, ⟨s, n + 1⟩) := by
  have hcheck : runFaulty fault (Peer.record advert.peer).checkNew ⟨s, n⟩ =
      (.error .backendError, ⟨s, n + 1⟩) := by
    rw [Record.runFaulty_checkNew, if_pos ⟨h, hexists⟩]
  unfold Peer.create
  rw [runFaulty_bind_error hcheck]

theorem runFaulty_updateOrCreate : runFaulty fault (Peer.updateOrCreate advert) ⟨s, n⟩ =
    if fault.error n = none ∧ (Peer.record advert.peer).Exists s then
      runFaulty fault (Peer.updateAdvert advert.peer advert) ⟨s, n + 1⟩
    else runFaulty fault (Peer.create advert) ⟨s, n + 1⟩ := by
  have hopen : runFaulty fault (Peer.record advert.peer).openRecord ⟨s, n⟩ = _ :=
    Record.runFaulty_openRecord
  unfold runFaulty runProg at hopen
  show Prog.run (execFaulty fault) ((Peer.record advert.peer).openRecord.run >>= _) _ = _
  rw [Prog.run_bind, hopen]
  by_cases h : fault.error n = none ∧ (Peer.record advert.peer).Exists s
  · rw [if_pos h, if_pos h]
    rfl
  · rw [if_neg h, if_neg h]
    rfl

end Peer

/-! ## What a join keeps -/

/-- A call that removes no value, except one of the adverts of a peer. -/
def Adds (c : BrokerCall) : Prop :=
  c.IsRead ∨ (∃ pre key suffix v, c = .put pre key suffix v) ∨
    ∃ id, c.property = (Peer.record id).prop Peer.ADVERT

theorem adds_read (c : BrokerCall) (h : c.IsRead) : Adds c := .inl h

theorem adds_put {pre : UInt8} {key : Bytes} {suffix : Option UInt8} {v : Bytes} :
    Adds (.put pre key suffix v) := .inr (.inl ⟨_, _, _, _, rfl⟩)

namespace BrokerServer

variable {fault : Fault StorageError} {s : LmdbBrokerStore} {o : OverlayId} {user : PubKey}

/-- The end of `join_overlay`. -/
def addMember (o : OverlayId) (user : PubKey) (peers : List PeerAdvert) : BrokerProgE Unit := do
  addPeers o peers
  Account.openId user
  Account.addOverlay user o

theorem runFaulty_addMember_cons (advert : PeerAdvert) (peers : List PeerAdvert)
    (w : Counted LmdbBrokerStore) : runFaulty fault (addMember o user (advert :: peers)) w =
      runFaulty fault (do
        Peer.updateOrCreate advert
        Overlay.addPeer o advert.peer
        addMember o user peers) w := by
  refine (runFaulty_assoc _ _ _ w).trans ?_
  obtain ⟨res, w', hrun⟩ : ∃ res w', runFaulty fault (Peer.updateOrCreate advert) w = (res, w') :=
    ⟨_, _, rfl⟩
  cases res with
  | error e => rw [runFaulty_bind_error hrun, runFaulty_bind_error hrun]
  | ok u =>
    rw [runFaulty_bind_ok hrun, runFaulty_bind_ok hrun]
    exact runFaulty_assoc _ _ _ w'

theorem adds_updateOrCreate (advert : PeerAdvert) :
    Every Adds (Peer.updateOrCreate advert).run := by
  refine .bind (.openRecord adds_read) fun res => ?_
  split
  · exact .bindE (.checkNew adds_read) fun _ => .bindE (.put adds_put) fun _ => .put adds_put
  · exact .pure _
  · exact RecordOp.every_peerUpdateAdvert adds_read (.inr (.inr ⟨_, rfl⟩))

theorem adds_addMember (o : OverlayId) (user : PubKey) (peers : List PeerAdvert) :
    Every Adds (addMember o user peers).run := by
  refine .bindE ?_ fun _ => .bindE (.openRecord adds_read) fun _ => .add adds_read adds_put
  induction peers with
  | nil => exact .pure _
  | cons advert peers ih =>
    exact .bindE (adds_updateOrCreate advert) fun _ => .bindE (.add adds_read adds_put) fun _ => ih

/-- A value that is not an advert stays. -/
theorem runFaulty_keeps {α : Type} {x : BrokerProgE α} (hx : Every Adds x.run) (e : Entity)
    (suffix : UInt8) (hp : ∀ id, e = .peer id → suffix ≠ Peer.ADVERT) {v : Bytes}
    {w : Counted LmdbBrokerStore} (hv : (e.property (some suffix), v) ∈ w.state) :
    (e.property (some suffix), v) ∈ (runFaulty fault x w).2.state := by
  refine Fault.run_invariant (S := brokerStore) BrokerCall.failed exec fault
    (I := fun t => (e.property (some suffix), v) ∈ t) hx.calls ?_ hv
  rintro c t (hread | ⟨pre, key, suffix', v', rfl⟩ | ⟨id, hprop⟩) ht
  · rw [BrokerCall.exec_of_isRead hread]
    exact ht
  · exact Finset.mem_insert_of_mem ht
  · refine (BrokerCall.mem_exec_of_ne fun he => ?_).mpr ht
    obtain ⟨hentity, hsuffix⟩ := @Entity.property_inj e (.peer id) (some suffix) (some Peer.ADVERT)
      (he.symm.trans hprop)
    exact hp id hentity (Option.some.inj hsuffix)

end BrokerServer

/-! ## Newer adverts -/

/-- The stored advert of the peer is newer than `version`. -/
structure Peer.Newer (s : LmdbBrokerStore) (id : PeerId) (version : UInt32) : Prop where
  found : (Peer.record id).Exists s
  advert : ∃ a, (∀ v, ((Peer.record id).prop Peer.ADVERT, v) ∈ s ↔ v = Peer.peerAdvert.encode a) ∧
    version < a.version

namespace Peer.Newer

variable {fault : Fault StorageError} {s s' : LmdbBrokerStore} {id : PeerId} {version : UInt32}

theorem stored_eq {a : PeerAdvert}
    (h : ∀ v, ((Peer.record id).prop Peer.ADVERT, v) ∈ s ↔ v = Peer.peerAdvert.encode a) :
    Peer.stored s id = some a := by
  have hfirst := MultiMap.first_of_unique ((h _).mpr rfl) fun v hv => (h v).mp hv
  unfold Peer.stored
  rw [hfirst, Option.bind_some, Codec.fromBytes_encode]

/-- The store has changed since the advert was the stored one. -/
theorem ne {current : PeerAdvert} (hstored : Peer.stored s id = some current)
    (h : Peer.Newer s' id current.version) : s' ≠ s := by
  rintro rfl
  obtain ⟨a, ha, hlt⟩ := h.advert
  obtain rfl : a = current := Option.some.inj ((stored_eq ha).symm.trans hstored)
  exact absurd hlt (lt_irrefl _)

/-- The entries of the peer are as before. -/
theorem of_same (h : Peer.Newer s id version) (hsame : ∀ suffix v,
    ((Peer.record id).prop suffix, v) ∈ s' ↔ ((Peer.record id).prop suffix, v) ∈ s) :
    Peer.Newer s' id version where
  found := by
    obtain ⟨v, hv⟩ := hasValue_iff.mp h.found
    exact hasValue_iff.mpr ⟨v, (hsame _ v).mpr hv⟩
  advert := by
    obtain ⟨a, ha, hlt⟩ := h.advert
    exact ⟨a, fun v => (hsame _ v).trans (ha v), hlt⟩

/-- A program on another entity keeps the advert. -/
theorem other {α : Type} {x : BrokerProgE α} {e : Entity} {suffixes : List UInt8}
    (hx : Every (RecordOp.Touches e.record suffixes) x.run) (he : e ≠ .peer id)
    {w : Counted LmdbBrokerStore} (h : Peer.Newer w.state id version) :
    Peer.Newer (runFaulty fault x w).2.state id version := by
  refine Fault.run_invariant (S := brokerStore) BrokerCall.failed exec fault
    (I := fun t => Peer.Newer t id version) hx.calls ?_ h
  rintro c t (hread | ⟨suffix, -, hprop⟩) ht
  · rw [BrokerCall.exec_of_isRead hread]
    exact ht
  · refine ht.of_same fun suffix' v => BrokerCall.mem_exec_of_ne fun heq => he ?_
    exact (@Entity.property_inj e (.peer id) (some suffix) (some suffix') (hprop.symm.trans heq)).1

/-- The stored advert after a replacement. -/
theorem replaced {advert : PeerAdvert} (hfound : (Peer.record id).Exists s)
    (hlt : version < advert.version) :
    Peer.Newer (insert ((Peer.record id).prop Peer.ADVERT, Peer.peerAdvert.encode advert)
      (s.deleteAll ((Peer.record id).prop Peer.ADVERT))) id version where
  found := by
    obtain ⟨v, hv⟩ := hasValue_iff.mp hfound
    have hne : (Peer.record id).prop Peer.VERSION ≠ (Peer.record id).prop Peer.ADVERT := fun he =>
      absurd ((Peer.record id).prop_inj he) (by decide)
    exact hasValue_iff.mpr ⟨v, Finset.mem_insert_of_mem (mem_deleteAll.mpr ⟨hne, hv⟩)⟩
  advert := by
    refine ⟨advert, fun v => ⟨fun hv => ?_, ?_⟩, hlt⟩
    · obtain he | hv := Finset.mem_insert.mp hv
      · exact congrArg Prod.snd he
      · exact absurd rfl (mem_deleteAll.mp hv).1
    · rintro rfl
      exact Finset.mem_insert_self ..

/-- An advert is replaced by a newer one only. -/
theorem updateOrCreate (h : Peer.Newer s id version) (advert : PeerAdvert) (n : ℕ) :
    Peer.Newer (runFaulty fault (Peer.updateOrCreate advert) ⟨s, n⟩).2.state id version := by
  by_cases hid : advert.peer = id
  · subst hid
    rw [Peer.runFaulty_updateOrCreate]
    by_cases hopen : fault.error n = none ∧ (Peer.record advert.peer).Exists s
    · rw [if_pos hopen]
      obtain ⟨a, ha, hlt⟩ := h.advert
      have hstored := stored_eq ha
      cases hread : fault.error (n + 1) with
      | some e =>
        rw [Peer.runFaulty_updateAdvert_error hread]
        exact h
      | none =>
        rw [Peer.runFaulty_updateAdvert hstored hread]
        by_cases hle : advert.version ≤ a.version
        · rw [if_pos hle]
          exact h
        · rw [if_neg hle]
          cases hwrite : fault.error (n + 2) with
          | some e =>
            rw [Record.runFaulty_replace_error hwrite]
            exact h
          | none =>
            rw [Record.runFaulty_replace hwrite (Peer.stored_eq_some hstored)]
            exact replaced h.found (lt_trans hlt (lt_of_not_ge hle))
    · rw [if_neg hopen]
      cases hn : fault.error n with
      | none => exact absurd ⟨hn, h.found⟩ hopen
      | some e =>
        rw [Peer.runFaulty_create_found (Fault.error_of_other hn (by omega)) h.found]
        exact h
  · exact other (e := .peer advert.peer) (RecordOp.touches_peerUpdateOrCreate advert)
      (fun he => hid (Entity.peer.inj he)) h

end Peer.Newer

namespace BrokerServer

variable {fault : Fault StorageError} {s : LmdbBrokerStore} {o : OverlayId}
  {user : PubKey} {id : PeerId}
  {version : UInt32}

theorem newer_addMember (peers : List PeerAdvert) {w : Counted LmdbBrokerStore}
    (h : Peer.Newer w.state id version) :
    Peer.Newer (runFaulty fault (addMember o user peers) w).2.state id version := by
  induction peers generalizing w with
  | nil =>
    have hopen : Every (RecordOp.Touches (Entity.account user).record [])
      (Account.openId user).run :=
      .openRecord RecordOp.touches_read
    have hadd : Every (RecordOp.Touches (Entity.account user).record [Account.OVERLAY])
        (Account.addOverlay user o).run :=
      .add RecordOp.touches_read (RecordOp.touches_write (List.mem_singleton_self _) rfl)
    have hkeeps : ∀ w : Counted LmdbBrokerStore, Peer.Newer w.state id version →
      Peer.Newer (runFaulty fault (do
        Account.openId user
        Account.addOverlay user o) w).2.state id version := fun w hw =>
      runFaulty_bind_keeps (I := fun t => Peer.Newer t id version) (hw.other hopen nofun)
        fun _ w' hw' => hw'.other hadd nofun
    exact hkeeps w h
  | cons advert peers ih =>
    have hadd : Every (RecordOp.Touches (Entity.overlay o).record [Overlay.PEER])
        (Overlay.addPeer o advert.peer).run :=
      .add RecordOp.touches_read (RecordOp.touches_write (List.mem_singleton_self _) rfl)
    rw [runFaulty_addMember_cons]
    refine runFaulty_bind_keeps (I := fun t => Peer.Newer t id version)
      (h.updateOrCreate advert w.calls) fun _ w' hw' => ?_
    exact runFaulty_bind_keeps (I := fun t => Peer.Newer t id version) (hw'.other hadd nofun)
      fun _ w'' hw'' => ih hw''

variable (fault o user) in
theorem newer_rest (id' : PeerId) (peers : List PeerAdvert) (n : ℕ) (h : Peer.Newer s id version) :
    Peer.Newer (runFaulty fault (do
      Overlay.addPeer o id'
      addMember o user peers) ⟨s, n⟩).2.state id version := by
  have hadd : Every (RecordOp.Touches (Entity.overlay o).record [Overlay.PEER])
    (Overlay.addPeer o id').run :=
    .add RecordOp.touches_read (RecordOp.touches_write (List.mem_singleton_self _) rfl)
  refine runFaulty_bind_keeps (I := fun t => Peer.Newer t id version) ?_
    fun _ w hw => newer_addMember peers hw
  exact Peer.Newer.other hadd nofun h

/-! ## Members and peers -/

/-- The overlay has the peer. -/
def HasPeer (s : LmdbBrokerStore) (o : OverlayId) (id : PeerId) : Prop :=
  ((Overlay.record o).prop Overlay.PEER, Reference.pubKey.encode id) ∈ s

instance (s : LmdbBrokerStore) (o : OverlayId) (id : PeerId) : Decidable (HasPeer s o id) :=
  inferInstanceAs (Decidable (_ ∈ _))

/-- A join that goes on with the peers at the call `n` changes nothing if it fails: every peer is
recorded already, with an advert that is as new, up to the one at which the join fails before it
writes. -/
def PeersUnchanged (fault : Fault StorageError) (s : LmdbBrokerStore) (o : OverlayId) :
    ℕ → List PeerAdvert → Prop
  | _, [] => True
  | n, advert :: peers =>
    if (Peer.record advert.peer).Exists s then
      match Peer.stored s advert.peer with
      | none => True
      | some current =>
        if current.version < advert.version then fault.In n (n + 3)
        else fault.In n (n + 4) ∨ HasPeer s o advert.peer ∧ PeersUnchanged fault s o (n + 4) peers
    else fault.In (n + 2) (n + 3)

/-- The end of a join that fails without peers. -/
theorem addMember_nil_unchanged {n : ℕ} {e : StorageError} {w' : Counted LmdbBrokerStore}
    (herr : runFaulty fault (addMember o user []) ⟨s, n⟩ = (.error e, w')) : w'.state = s := by
  have herr : runFaulty fault (do
      Account.openId user
      Account.addOverlay user o) ⟨s, n⟩ = (.error e, w') := herr
  have hopen : runFaulty fault (Account.openId user) ⟨s, n⟩ = (if fault.error n = none ∧
      (Account.record user).Exists s then .ok () else .error .notFound, ⟨s, n + 1⟩) :=
    Record.runFaulty_openRecord
  by_cases hacc : fault.error n = none ∧ (Account.record user).Exists s
  · rw [if_pos hacc] at hopen
    rw [runFaulty_bind_ok hopen, Account.addOverlay, Record.runFaulty_add] at herr
    split at herr
    · cases hput : fault.error (n + 2) with
      | some e' =>
        rw [Record.runFaulty_put_error hput] at herr
        cases herr
        rfl
      | none =>
        rw [Record.runFaulty_put hput] at herr
        cases herr
    · cases herr
      rfl
  · rw [if_neg hacc] at hopen
    rw [runFaulty_bind_error hopen] at herr
    cases herr
    rfl

/-- A peer that is found, but not at once, or whose advert cannot be read, stops the join. -/
theorem updateOrCreate_stopped {advert : PeerAdvert} {n : ℕ}
    (hexists : (Peer.record advert.peer).Exists s)
    (h : fault.In n (n + 2) ∨ Peer.stored s advert.peer = none) :
    ∃ e w, runFaulty fault (Peer.updateOrCreate advert) ⟨s, n⟩ = (.error e, w) ∧ w.state = s := by
  rw [Peer.runFaulty_updateOrCreate]
  cases hn : fault.error n with
  | some e =>
    rw [if_neg (by simp), Peer.runFaulty_create_found (Fault.error_of_other hn (by omega)) hexists]
    exact ⟨_, _, rfl, rfl⟩
  | none =>
    rw [if_pos ⟨rfl, hexists⟩]
    obtain hin | hnone := h
    · obtain ⟨e, he⟩ | hin := hin.split
      · rw [hn] at he
        cases he
      · obtain ⟨e, he⟩ | hin := hin.split
        · rw [Peer.runFaulty_updateAdvert_error he]
          exact ⟨_, _, rfl, rfl⟩
        · exact absurd hin.lt (lt_irrefl _)
    · rw [Peer.runFaulty_updateAdvert_unreadable hnone]
      exact ⟨_, _, rfl, rfl⟩

/-- A peer that does not exist is created, unless that fails. -/
theorem updateOrCreate_new {advert : PeerAdvert} (n : ℕ)
    (hnot : ¬ (Peer.record advert.peer).Exists s) :
    (∃ e, fault.error (n + 2) = some e ∧
      runFaulty fault (Peer.updateOrCreate advert) ⟨s, n⟩ = (.error e, ⟨s, n + 3⟩)) ∨
    fault.error (n + 2) = none ∧ ((Peer.record advert.peer).prop Peer.VERSION,
      Codec.u32.encode advert.version) ∈ (runFaulty fault
      (Peer.updateOrCreate advert) ⟨s, n⟩).2.state := by
  have hcheck : runFaulty fault (Peer.record advert.peer).checkNew ⟨s, n + 1⟩ =
      (.ok (), ⟨s, n + 2⟩) := by
    rw [Record.runFaulty_checkNew, if_neg fun h => hnot h.2]
  rw [Peer.runFaulty_updateOrCreate, if_neg fun h => hnot h.2]
  unfold Peer.create
  rw [runFaulty_bind_ok hcheck]
  cases hput : fault.error (n + 2) with
  | some e => exact .inl ⟨e, rfl, runFaulty_bind_error (Record.runFaulty_put_error hput) _⟩
  | none =>
    refine .inr ⟨rfl, ?_⟩
    rw [runFaulty_bind_ok (Record.runFaulty_put hput)]
    have hrest : Every Adds ((Peer.record advert.peer).put Peer.ADVERT
      (Peer.peerAdvert.encode advert)).run := .put adds_put
    exact runFaulty_keeps hrest (.peer advert.peer) Peer.VERSION
      (fun _ _ => by decide) (Finset.mem_insert_self ..)

theorem updateOrCreate_known {advert current : PeerAdvert} {n : ℕ}
    (hexists : (Peer.record advert.peer).Exists s)
    (hstored : Peer.stored s advert.peer = some current)
    (hnot : ¬ fault.In n (n + 2)) : runFaulty fault (Peer.updateOrCreate advert) ⟨s, n⟩ =
      if advert.version ≤ current.version then (.ok (), ⟨s, n + 2⟩)
      else runFaulty fault ((Peer.record advert.peer).replace Peer.ADVERT
        (Peer.peerAdvert.encode advert))
        ⟨s, n + 2⟩ := by
  have hn : fault.error n = none := Fault.error_of_not_in hnot (by omega) (by omega)
  have hn₁ : fault.error (n + 1) = none := Fault.error_of_not_in hnot (by omega) (by omega)
  rw [Peer.runFaulty_updateOrCreate, if_pos ⟨hn, hexists⟩, Peer.runFaulty_updateAdvert hstored hn₁]

variable (s o id) in
theorem addPeer_stopped {n : ℕ} (h : fault.In n (n + 2)) :
    ∃ e w, runFaulty fault (Overlay.addPeer o id) ⟨s, n⟩ = (.error e, w) ∧ w.state = s := by
  unfold Overlay.addPeer
  rw [Record.runFaulty_add]
  split
  · rename_i hfound
    obtain ⟨e, he⟩ | hin := h.split
    · rw [hfound.1] at he
      cases he
    · obtain ⟨e, he⟩ | hin := hin.split
      · exact ⟨e, _, Record.runFaulty_put_error he, rfl⟩
      · exact absurd hin.lt (lt_irrefl _)
  · exact ⟨_, _, rfl, rfl⟩

variable (id) in
theorem addPeer_ok {n : ℕ} (hexists : (Overlay.record o).Exists s) (h : ¬ fault.In n (n + 2)) :
    runFaulty fault (Overlay.addPeer o id) ⟨s, n⟩ =
    (.ok (), ⟨insert ((Overlay.record o).prop Overlay.PEER,
      Reference.pubKey.encode id) s, n + 2⟩) := by
  have hn : fault.error n = none := Fault.error_of_not_in h (by omega) (by omega)
  have hn₁ : fault.error (n + 1) = none := Fault.error_of_not_in h (by omega) (by omega)
  unfold Overlay.addPeer
  rw [Record.runFaulty_add, if_pos ⟨hn, hexists⟩, Record.runFaulty_put hn₁]

/-- The end of a join that fails has changed nothing if and only if it fails before it writes. -/
theorem addMember_unchanged_iff (hexists : (Overlay.record o).Exists s)
    (peers : List PeerAdvert) {n : ℕ}
    {e : StorageError} {w' : Counted LmdbBrokerStore}
    (herr : runFaulty fault (addMember o user peers) ⟨s, n⟩ = (.error e, w')) :
    w'.state = s ↔ PeersUnchanged fault s o n peers := by
  induction peers generalizing n with
  | nil => exact iff_of_true (addMember_nil_unchanged herr) trivial
  | cons advert peers ih =>
    rw [runFaulty_addMember_cons] at herr
    have hrest : Every Adds (do
        Overlay.addPeer o advert.peer
        addMember o user peers : BrokerProgE Unit).run :=
      .bindE (.add adds_read adds_put) fun _ => adds_addMember o user peers
    -- an error of the first operation is the result
    have hstop : (∃ e w, runFaulty fault (Peer.updateOrCreate advert) ⟨s, n⟩ =
      (.error e, w) ∧ w.state = s) →
        w'.state = s := by
      rintro ⟨e', w, hrun, hw⟩
      rw [runFaulty_bind_error hrun] at herr
      cases herr
      exact hw
    unfold PeersUnchanged
    by_cases hpeer : (Peer.record advert.peer).Exists s
    · rw [if_pos hpeer]
      cases hstored : Peer.stored s advert.peer with
      | none => exact iff_of_true (hstop (updateOrCreate_stopped hpeer (.inr hstored))) trivial
      | some current =>
        dsimp only
        by_cases hread : fault.In n (n + 2)
        · have hsame := hstop (updateOrCreate_stopped hpeer (.inl hread))
          split
          · exact iff_of_true hsame (hread.mono (by omega) (by omega))
          · exact iff_of_true hsame (.inl (hread.mono (by omega) (by omega)))
        · have hknown := updateOrCreate_known hpeer hstored hread
          by_cases hnew : current.version < advert.version
          · rw [if_pos hnew]
            rw [if_neg (not_le_of_gt hnew)] at hknown
            cases hwrite : fault.error (n + 2) with
            | some e' =>
              rw [Record.runFaulty_replace_error hwrite] at hknown
              exact iff_of_true (hstop ⟨_, _, hknown, rfl⟩)
                (Fault.in_of_error hwrite (by omega) (by omega))
            | none =>
              rw [Record.runFaulty_replace hwrite (Peer.stored_eq_some hstored)] at hknown
              rw [runFaulty_bind_ok hknown] at herr
              have hnewer := newer_rest fault o user advert.peer peers (n + 2 + 1)
                (Peer.Newer.replaced hpeer hnew)
              rw [herr] at hnewer
              refine iff_of_false (hnewer.ne hstored) fun hin => ?_
              obtain hin | hin := hin.or (b := n + 2)
              · exact hread hin
              · obtain ⟨e', he'⟩ := Fault.in_succ.mp hin
                rw [hwrite] at he'
                cases he'
          · rw [if_neg hnew]
            rw [if_pos (not_lt.mp hnew)] at hknown
            rw [runFaulty_bind_ok hknown] at herr
            by_cases hadds : fault.In (n + 2) (n + 4)
            · obtain ⟨e', w, hrun, hw⟩ := addPeer_stopped s o advert.peer hadds
              rw [runFaulty_bind_error hrun] at herr
              cases herr
              exact iff_of_true hw (.inl (hadds.mono (by omega) (by omega)))
            · have hnone : ¬ fault.In n (n + 4) := fun hin => hin.or.elim hread hadds
              rw [or_iff_right hnone]
              have hadded := addPeer_ok advert.peer hexists hadds
              rw [runFaulty_bind_ok hadded] at herr
              by_cases hhas : HasPeer s o advert.peer
              · rw [Finset.insert_eq_of_mem hhas] at herr
                exact (ih herr).trans (and_iff_right hhas).symm
              · have hkept : ∀ {t : LmdbBrokerStore} (m : ℕ), HasPeer t o advert.peer →
                    HasPeer (runFaulty fault (addMember o user peers) ⟨t, m⟩).2.state
                    o advert.peer :=
                  fun _ ht => runFaulty_keeps (adds_addMember o user peers) (.overlay o) _ nofun ht
                have hfinal := hkept (n + 4) (Finset.mem_insert_self _ s)
                rw [herr] at hfinal
                exact iff_of_false (fun hsame => hhas (hsame ▸ hfinal)) fun h => hhas h.1
    · rw [if_neg hpeer]
      obtain ⟨e', hput, hrun⟩ | ⟨hput, hmem⟩ := updateOrCreate_new n hpeer
      · exact iff_of_true (hstop ⟨_, _, hrun, rfl⟩) (Fault.in_of_error hput (by omega) (by omega))
      · refine iff_of_false (fun hsame => hpeer ?_) fun hin => ?_
        · have hkept :=
            runFaulty_bind_keeps (I := fun t => ((Peer.record advert.peer).prop Peer.VERSION,
            Codec.u32.encode advert.version) ∈ t) hmem fun _ w hw => runFaulty_keeps hrest
            (.peer advert.peer) Peer.VERSION (fun _ _ => by decide) hw
          rw [herr] at hkept
          exact hasValue_iff.mpr ⟨_, hsame ▸ hkept⟩
        · obtain ⟨e', he'⟩ := Fault.in_succ.mp hin
          rw [hput] at he'
          cases he'

/-! ## Joins -/

section Server

variable {α β : Type} {w w' : Counted LmdbBrokerStore}

theorem runProg_ofStore (x : BrokerProgE α) : runProg fault (ServerProg.ofStore x).run.run w =
    (some ((runFaulty fault x w).1.mapError ProtocolError.ofStorageError),
      (runFaulty fault x w).2) := by
  show Prog.run (execFaulty fault) (x.run >>= fun res =>
    pure (some (res.mapError ProtocolError.ofStorageError))) w = _
  rw [Prog.run_bind]
  rfl

theorem runProg_result (x : BrokerProgE α) : runProg fault (ServerProg.result x).run.run w =
    (some (.ok (runFaulty fault x w).1), (runFaulty fault x w).2) := by
  show Prog.run (execFaulty fault) (x.run >>= fun res =>
    (pure (some (Except.ok res)) : BrokerProg (Option (Except ProtocolError _)))) w = _
  rw [Prog.run_bind]
  rfl

theorem runProg_bindO_keeps {I : LmdbBrokerStore → Prop} {x : ServerProg α} {f : α → ServerProg β}
    (hx : I (runProg fault x.run.run w).2.state)
    (hf : ∀ a w', I w'.state → I (runProg fault (f a).run.run w').2.state) :
    I (runProg fault (x >>= f).run.run w).2.state := by
  unfold runProg at hx ⊢
  rw [ExceptT.run_bind, OptionT.run_bind, Option.elimM, Prog.run_bind]
  generalize Prog.run (execFaulty fault) x.run.run w = out at hx
  obtain ⟨_ | _ | a, w'⟩ := out
  · exact hx
  · exact hx
  · exact hf a w' hx

end Server

/-- `join_overlay` on the records `s`, where an operation of the store may fail. -/
def joinFaulty (E : Env) (mode : ConfigMode) (user : PubKey) (o : OverlayId)
    (repoId : Option PubKey)
    (secret : SymKey) (peers : List PeerAdvert) (fault : Fault StorageError) (s : LmdbBrokerStore) :
    Option (Except ProtocolError Unit) × LmdbBrokerStore :=
  let out := runProg fault (joinOverlayProg E mode user o repoId secret peers).run.run ⟨s, 0⟩
  (out.1, out.2.state)

/-- If no operation fails, it is the join of the server. -/
theorem serve_joinOverlay_joinFaulty {sv sv' : BrokerServer} {E : Env} {repoId : Option PubKey}
    {secret : SymKey} {peers : List PeerAdvert} {res : Except ProtocolError Unit} :
    sv.serve (joinOverlay E user o repoId secret peers) = some (res, sv') ↔
      ∃ store, joinFaulty E sv.mode user o repoId secret peers none sv.store = (some res, store) ∧
        sv' = { sv with store } := by
  have hrun := Fault.run_none (S := brokerStore) BrokerCall.failed exec
    (joinOverlayProg E sv.mode user o repoId secret peers).run.run ⟨sv.store, 0⟩
  have hjoin : joinFaulty E sv.mode user o repoId secret peers none sv.store =
      runServer (joinOverlayProg E sv.mode user o repoId secret peers) sv.store :=
    Prod.ext hrun.1 hrun.2
  rw [serve_joinOverlay, serve_records_eq, hjoin]
  generalize runServer (joinOverlayProg E sv.mode user o repoId secret peers) sv.store = out
  obtain ⟨_ | res', store⟩ := out <;> simp [eq_comm]

/-- A join changes nothing if it fails: the overlay exists and is not found, or a peer stops the
join before it writes, or the overlay does not exist and is not created. -/
def JoinUnchanged (mode : ConfigMode) (o : OverlayId) (repoId : Option PubKey)
    (peers : List PeerAdvert)
    (fault : Fault StorageError) (s : LmdbBrokerStore) : Prop :=
  if (Overlay.record o).Exists s then fault.In 0 1 ∨ PeersUnchanged fault s o 1 peers
  else (mode = .localMode ∧ repoId = none) ∨ fault.In 2 3

section Join

variable {E : Env} {mode : ConfigMode} {repoId : Option PubKey} {secret : SymKey}
  {peers : List PeerAdvert}

variable (fault s o) in
theorem runProg_openOverlay : runProg fault (ServerProg.result (Overlay.openId o)).run.run ⟨s, 0⟩ =
    (some (.ok (if fault.error 0 = none ∧ (Overlay.record o).Exists s then
      .ok () else .error .notFound)),
      ⟨s, 1⟩) := by
  rw [runProg_result, Overlay.openId, Record.runFaulty_openRecord]

/-- The join of an overlay that is found. -/
theorem runProg_join_found (h : fault.error 0 = none ∧ (Overlay.record o).Exists s) :
    runProg fault (joinOverlayProg E mode user o repoId secret peers).run.run ⟨s, 0⟩ =
      runProg fault (ServerProg.ofStore (addMember o user peers)).run.run ⟨s, 1⟩ := by
  have hopen := runProg_openOverlay fault s o
  rw [if_pos h] at hopen
  exact Prog.run_bindO_ok hopen _

/-- The join of an overlay that is not found. -/
theorem runProg_join_created (h : ¬ (fault.error 0 = none ∧ (Overlay.record o).Exists s)) :
    runProg fault (joinOverlayProg E mode user o repoId secret peers).run.run ⟨s, 0⟩ =
      runProg fault (do
        createOverlay E mode o repoId secret
        ServerProg.ofStore (addMember o user peers)).run.run ⟨s, 1⟩ := by
  have hopen := runProg_openOverlay fault s o
  rw [if_neg h] at hopen
  exact Prog.run_bindO_ok hopen _

theorem join_noRepo (h : mode = .localMode ∧ repoId = none) {w : Counted LmdbBrokerStore} :
    runProg fault (do
        createOverlay E mode o repoId secret
        ServerProg.ofStore (addMember o user peers)).run.run w =
      (some (.error .repoIdRequired), w) := by
  have hstop : runProg fault (createOverlay E mode o repoId secret).run.run w =
      (some (.error .repoIdRequired), w) := by
    unfold createOverlay
    rw [if_pos h]
    rfl
  exact Prog.run_bindO_error hstop _

/-- The program without the check of the repo id. -/
theorem createOverlay_eq (h : ¬ (mode = .localMode ∧ repoId = none)) :
    createOverlay E mode o repoId secret =
    (do
      ServerProg.ofStore (Overlay.create o secret
        (if mode = .localMode then repoId else none) E.now)
      let repostoreId ← ServerProg.unwrap (computeRepostoreId mode o repoId)
      ServerProg.ofStore (RepoStoreInfo.create repostoreId ⟨E.randomBuf⟩)) := by
  unfold createOverlay
  rw [if_neg h]

/-- A join whose overlay is not created ends with the error. -/
theorem join_stopped (h : ¬ (mode = .localMode ∧ repoId = none)) {e : StorageError}
    {w : Counted LmdbBrokerStore} (hcreate : runFaulty fault
      (Overlay.create o secret (if mode = .localMode then repoId else none) E.now) ⟨s, 1⟩ =
      (.error e, w)) :
    runProg fault (do
        createOverlay E mode o repoId secret
        ServerProg.ofStore (addMember o user peers)).run.run ⟨s, 1⟩ =
      (some (.error (.ofStorageError e)), w) := by
  have hstop : runProg fault (createOverlay E mode o repoId secret).run.run ⟨s, 1⟩ =
      (some (.error (.ofStorageError e)), w) := by
    rw [createOverlay_eq h]
    refine Prog.run_bindO_error ?_ _
    refine (runProg_ofStore _).trans ?_
    rw [hcreate]
    rfl
  exact Prog.run_bindO_error hstop _

theorem runFaulty_overlayCreate_found {repo : Option PubKey} {now : Timestamp} {n : ℕ}
    (h : fault.error n = none ∧ (Overlay.record o).Exists s) :
    runFaulty fault (Overlay.create o secret repo now) ⟨s, n⟩ =
    (.error .backendError, ⟨s, n + 1⟩) := by
  have hcheck : runFaulty fault (Overlay.record o).checkNew ⟨s, n⟩ =
      (.error .backendError, ⟨s, n + 1⟩) := by
    rw [Record.runFaulty_checkNew, if_pos h]
  unfold Overlay.create
  rw [runFaulty_bind_error hcheck]

theorem runFaulty_overlayCreate_error {repo : Option PubKey} {now : Timestamp}
    {n : ℕ} {e : StorageError}
    (hnot : ¬ (Overlay.record o).Exists s) (h : fault.error (n + 1) = some e) :
    runFaulty fault (Overlay.create o secret repo now) ⟨s, n⟩ = (.error e, ⟨s, n + 2⟩) := by
  have hcheck : runFaulty fault (Overlay.record o).checkNew ⟨s, n⟩ = (.ok (), ⟨s, n + 1⟩) := by
    rw [Record.runFaulty_checkNew, if_neg fun hfound => hnot hfound.2]
  unfold Overlay.create
  rw [runFaulty_bind_ok hcheck, runFaulty_bind_error (Record.runFaulty_put_error h)]

/-- The secret of an overlay that is created stays. -/
theorem overlayCreate_secret {repo : Option PubKey} {now : Timestamp} {n : ℕ}
    (hnot : ¬ (Overlay.record o).Exists s) (h : fault.error (n + 1) = none) :
    ((Overlay.record o).prop Overlay.SECRET, Reference.symKey.encode secret) ∈
      (runFaulty fault (Overlay.create o secret repo now) ⟨s, n⟩).2.state := by
  have hcheck : runFaulty fault (Overlay.record o).checkNew ⟨s, n⟩ = (.ok (), ⟨s, n + 1⟩) := by
    rw [Record.runFaulty_checkNew, if_neg fun hfound => hnot hfound.2]
  unfold Overlay.create
  rw [runFaulty_bind_ok hcheck, runFaulty_bind_ok (Record.runFaulty_put h)]
  refine runFaulty_keeps ?_ (.overlay o) Overlay.SECRET nofun (Finset.mem_insert_self ..)
  cases repo with
  | none => exact .put adds_put
  | some repo => exact .bindE (.put adds_put) fun _ => .put adds_put

variable (user E secret peers) in
theorem join_secret (h : ¬ (mode = .localMode ∧ repoId = none))
    (hnot : ¬ (Overlay.record o).Exists s)
    (hput : fault.error 2 = none) :
    ((Overlay.record o).prop Overlay.SECRET, Reference.symKey.encode secret) ∈
      (runProg fault (do
        createOverlay E mode o repoId secret
        ServerProg.ofStore (addMember o user peers)).run.run ⟨s, 1⟩).2.state := by
  have hkeeps : ∀ {α : Type} {x : BrokerProgE α} {w : Counted LmdbBrokerStore}, Every Adds x.run →
      ((Overlay.record o).prop Overlay.SECRET, Reference.symKey.encode secret) ∈ w.state →
      ((Overlay.record o).prop Overlay.SECRET, Reference.symKey.encode secret) ∈
        (runProg fault (ServerProg.ofStore x).run.run w).2.state := by
    intro α x w hx hw
    rw [runProg_ofStore]
    exact runFaulty_keeps hx (.overlay o) Overlay.SECRET nofun hw
  refine runProg_bindO_keeps (I := fun t => ((Overlay.record o).prop Overlay.SECRET,
    Reference.symKey.encode secret) ∈ t) ?_ fun _ w hw => hkeeps (adds_addMember o user peers) hw
  rw [createOverlay_eq h]
  refine runProg_bindO_keeps (I := fun t => ((Overlay.record o).prop Overlay.SECRET,
    Reference.symKey.encode secret) ∈ t) ?_ fun _ w hw => ?_
  · rw [runProg_ofStore]
    exact overlayCreate_secret hnot hput
  · refine runProg_bindO_keeps (I := fun t => ((Overlay.record o).prop Overlay.SECRET,
      Reference.symKey.encode secret) ∈ t) ?_ fun id w' hw' => ?_
    · cases computeRepostoreId mode o repoId <;> exact hw
    · exact hkeeps (.bindE (.checkNew adds_read) fun _ => .put adds_put) hw'

end Join

/-- A join that fails leaves the store as it was if and only if it fails before its first write that
changes something. -/
theorem failed_join_unchanged_iff (E : Env) (mode : ConfigMode) (user : PubKey) (o : OverlayId)
    (repoId : Option PubKey) (secret : SymKey) (peers : List PeerAdvert)
    (fault : Fault StorageError)
    (s : LmdbBrokerStore) {e : ProtocolError} {s' : LmdbBrokerStore}
    (herr : joinFaulty E mode user o repoId secret peers fault s = (some (.error e), s')) :
    s' = s ↔ JoinUnchanged mode o repoId peers fault s := by
  unfold joinFaulty at herr
  simp only [Prod.mk.injEq] at herr
  obtain ⟨hres, rfl⟩ := herr
  unfold JoinUnchanged
  by_cases hexists : (Overlay.record o).Exists s
  · rw [if_pos hexists]
    by_cases hopen : fault.error 0 = none
    · rw [runProg_join_found ⟨hopen, hexists⟩, runProg_ofStore] at hres ⊢
      have hnot : ¬ fault.In 0 1 := fun hin => by
        obtain ⟨e', he'⟩ := Fault.in_succ.mp hin
        rw [hopen] at he'
        cases he'
      rw [or_iff_right hnot]
      obtain ⟨res, w, hrun⟩ :
          ∃ res w, runFaulty fault (addMember o user peers) ⟨s, 1⟩ = (res, w) := ⟨_, _, rfl⟩
      rw [hrun] at hres ⊢
      cases res with
      | ok u => cases hres
      | error e' => exact addMember_unchanged_iff hexists peers hrun
    · obtain ⟨e', he'⟩ := Option.ne_none_iff_exists'.mp hopen
      refine iff_of_true ?_ (.inl (Fault.in_succ.mpr ⟨e', he'⟩))
      have hcheck : fault.error 1 = none := Fault.error_of_other he' (by omega)
      rw [runProg_join_created fun h => hopen h.1]
      by_cases hrepo : mode = .localMode ∧ repoId = none
      · rw [join_noRepo hrepo]
      · rw [join_stopped hrepo (runFaulty_overlayCreate_found ⟨hcheck, hexists⟩)]
  · rw [if_neg hexists, runProg_join_created fun h => hexists h.2]
    by_cases hrepo : mode = .localMode ∧ repoId = none
    · rw [join_noRepo hrepo]
      exact iff_of_true rfl (.inl hrepo)
    · rw [or_iff_right hrepo]
      cases hput : fault.error 2 with
      | some e' =>
        rw [join_stopped hrepo (runFaulty_overlayCreate_error hexists hput)]
        exact iff_of_true rfl (Fault.in_succ.mpr ⟨e', hput⟩)
      | none =>
        refine iff_of_false (fun hsame => hexists ?_) fun hin => ?_
        · have hsecret := join_secret user E secret peers hrepo hexists hput
          rw [hsame] at hsecret
          exact hasValue_iff.mpr ⟨_, hsecret⟩
        · obtain ⟨e', he'⟩ := Fault.in_succ.mp hin
          rw [hput] at he'
          cases he'

open TwoUsers in
/-- A user without an account fails to join an overlay that exists. -/
theorem failed_join_unchanged_noAccount : ∃ e s', joinFaulty env .coreMode bob overlay none
    ⟨.replicate 32 4⟩ [] none {((Overlay.record overlay).prop Overlay.SECRET, [1])} =
      (some (.error e), s') ∧ s' = {((Overlay.record overlay).prop Overlay.SECRET, [1])} := by
  have hjoin : joinFaulty env .coreMode bob overlay none ⟨.replicate 32 4⟩ [] none
      {((Overlay.record overlay).prop Overlay.SECRET, [1])} =
    (some (.error (.ofStorageError .notFound)),
      {((Overlay.record overlay).prop Overlay.SECRET, [1])}) := by
    rfl
  have hexists : (Overlay.record overlay).Exists
    {((Overlay.record overlay).prop Overlay.SECRET, [1])} :=
    hasValue_iff.mpr ⟨_, Finset.mem_singleton_self _⟩
  refine ⟨_, _, hjoin, (failed_join_unchanged_iff _ _ _ _ _ _ _ _ _ hjoin).mpr ?_⟩
  unfold JoinUnchanged
  rw [if_pos hexists]
  exact .inr trivial

open TwoUsers in
/-- A user without an account who joins an overlay that does not exist leaves it behind. -/
theorem not_failed_join_unchanged : ¬ ∀ E mode user o repoId secret peers fault s e s',
    joinFaulty E mode user o repoId secret peers fault s = (some (.error e), s') → s' = s := by
  intro h
  have hres : (joinFaulty env .coreMode bob overlay none ⟨.replicate 32 4⟩ [] none ∅).1 =
      some (.error (.ofStorageError .notFound)) := by rfl
  have hsame := h env .coreMode bob overlay none ⟨.replicate 32 4⟩ [] none ∅ _
    (joinFaulty env .coreMode bob overlay none ⟨.replicate 32 4⟩ [] none ∅).2 (Prod.ext hres rfl)
  have hcreated : (Overlay.record overlay).Exists
      (joinFaulty env .coreMode bob overlay none ⟨.replicate 32 4⟩ [] none ∅).2 := by decide +kernel
  rw [hsame] at hcreated
  exact hcreated rfl

end BrokerServer

end Lofire
