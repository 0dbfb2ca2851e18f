import Lofire.Lib.CheckThenAct
import Lofire.Broker.Users

/-!
# Keys of repo stores

`join_overlay` gives a new repo store its encryption key: `RepoStoreInfo::create` looks whether
there is a key and then adds one, in two transactions, and the broker store keeps both keys of two
calls that look before either adds. `repo_keys_unique` says that every repo store has one key at
most, which stays the same, as long as no call looks for the key of a repo store while another is
between its look and its addition.
-/

namespace Lofire

open Lib LmdbBrokerStore

/-- The key under which the broker store has the encryption keys of a repo store. -/
def RepoStoreInfo.keyProperty (id : RepoStoreId) : Bytes :=
  (RepoStoreInfo.record id).prop RepoStoreInfo.KEY

theorem RepoStoreInfo.keyProperty_inj {id id' : RepoStoreId}
    (h : keyProperty id = keyProperty id') : id = id' :=
  Entity.repoStoreInfo.inj (@Entity.property_inj (.repoStoreInfo id) (.repoStoreInfo id')
    (some RepoStoreInfo.KEY) (some RepoStoreInfo.KEY) h).1

/-- The encryption keys of the repo stores. -/
def repoKeys : CheckThenAct brokerStore LmdbBrokerStore RepoStoreId Bytes where
  exec := exec
  check id := BrokerCall.get (RepoStoreInfo.record id).PREFIX (RepoStoreInfo.record id).id
    (some RepoStoreInfo.KEY)
  act id v := BrokerCall.put (RepoStoreInfo.record id).PREFIX (RepoStoreInfo.record id).id
    (some RepoStoreInfo.KEY) v
  Failed _ r := r.toOption = none
  Holds s id v := (RepoStoreInfo.keyProperty id, v) ∈ s
  Harmless c := c.IsRead ∨ ∀ id, c.property ≠ RepoStoreInfo.keyProperty id
  exec_check _ _ := rfl
  not_holds_of_failed := by
    intro s id hfailed v hv
    have hreply : (match s.first (RepoStoreInfo.keyProperty id) with
      | some value => Except.ok value
      | none => Except.error StorageError.notFound).toOption = none := hfailed
    cases hfirst : s.first (RepoStoreInfo.keyProperty id) with
    | none => exact first_eq_none_iff.mp hfirst (hasValue_iff.mpr ⟨v, hv⟩)
    | some value =>
      rw [hfirst] at hreply
      cases hreply
  holds_act := by
    intro s id v id' v'
    refine Finset.mem_insert.trans (or_congr_left ⟨fun he => ?_, ?_⟩)
    · obtain ⟨hprop, rfl⟩ := Prod.mk.inj he
      exact ⟨RepoStoreInfo.keyProperty_inj hprop, rfl⟩
    · rintro ⟨rfl, rfl⟩
      rfl
  holds_harmless := by
    rintro c (hread | hne) s id v
    · rw [BrokerCall.exec_of_isRead hread]
    · exact BrokerCall.mem_exec_of_ne (hne id)
  not_harmless_act := by
    rintro id v (hread | hne)
    · exact hread
    · exact hne id rfl
  check_ne_act := nofun
  act_inj := fun h => RepoStoreInfo.keyProperty_inj (congrArg BrokerCall.property h)

namespace RepoKeys

variable {α β : Type}

/-- The program looks for the key of a repo store before it adds one. -/
abbrev Guarded (x : BrokerProg α) : Prop := repoKeys.Guarded x

theorem guarded_of_touches {e : Entity} (suffixes : List UInt8) (he : ∀ id, e ≠ .repoStoreInfo id)
    {x : BrokerProg α} (h : Every (RecordOp.Touches e.record suffixes) x) : Guarded x := by
  refine .of_calls (h.calls.mono fun c hc => ?_)
  obtain hread | ⟨suffix, -, hprop⟩ := hc
  · exact .inl hread
  · refine .inr fun id hid => he id ?_
    exact (@Entity.property_inj e (.repoStoreInfo id) (some suffix) (some RepoStoreInfo.KEY)
      (hprop.symm.trans hid)).1

theorem guarded_bindE {x : BrokerProgE α} {f : α → BrokerProgE β} (hx : Guarded x.run)
    (hf : ∀ a, Guarded (f a).run) : Guarded (x >>= f).run := by
  rw [ExceptT.run_bind]
  refine hx.bind fun res => ?_
  cases res with
  | error e => exact .ret _
  | ok a => exact hf a

theorem guarded_bindS {x : ServerProg α} {f : α → ServerProg β} (hx : Guarded x.run.run)
    (hf : ∀ a, Guarded (f a).run.run) : Guarded (x >>= f).run.run := by
  rw [ExceptT.run_bind, OptionT.run_bind]
  refine hx.bind fun res => ?_
  obtain _ | _ | a := res
  · exact .ret _
  · exact .ret _
  · exact hf a

theorem guarded_ofStore {x : BrokerProgE α} (hx : Guarded x.run) :
    Guarded (ServerProg.ofStore x).run.run := hx.bind fun _ => .ret _

theorem guarded_result {x : BrokerProgE α} (hx : Guarded x.run) :
    Guarded (ServerProg.result x).run.run := hx.bind fun _ => .ret _

theorem guarded_create (id : RepoStoreId) (key : SymKey) :
    Guarded (RepoStoreInfo.create id key).run := by
  have hret : ∀ r : Except StorageError Unit,
      Guarded (.ret r : BrokerProg (Except StorageError Unit)) := fun r => .ret r
  refine @CheckThenAct.Guarded.check _ _ _ _ _ repoKeys id (Reference.symKey.encode key) _ _
    (fun r hr => ?_) (fun r hr => ?_) hret
  · cases r with
    | error e => exact absurd rfl hr
    | ok v => exact .ret _
  · cases r with
    | error e => rfl
    | ok v => cases hr

theorem guarded_addPeers (o : OverlayId) (peers : List PeerAdvert) :
    Guarded (BrokerServer.addPeers o peers).run := by
  induction peers with
  | nil => exact .ret _
  | cons advert peers ih =>
    refine guarded_bindE (guarded_of_touches (e := .peer advert.peer) _ nofun
      (RecordOp.touches_peerUpdateOrCreate advert)) fun _ => guarded_bindE ?_ fun _ => ih
    exact guarded_of_touches (e := .overlay o) _ nofun
      (.add RecordOp.touches_read (RecordOp.touches_write (List.mem_singleton_self _) rfl))

theorem guarded_createOverlay (E : Env) (mode : ConfigMode) (o : OverlayId) (repoId : Option PubKey)
    (secret : SymKey) : Guarded (BrokerServer.createOverlay E mode o repoId secret).run.run := by
  unfold BrokerServer.createOverlay
  by_cases hrepo : mode = .localMode ∧ repoId = none
  · rw [if_pos hrepo]
    exact .ret _
  · rw [if_neg hrepo]
    dsimp only
    refine guarded_bindS (guarded_ofStore (guarded_of_touches (e := .overlay o) _ nofun
      (RecordOp.touches_overlayCreate ..))) fun _ => ?_
    refine guarded_bindS ?_ fun id => guarded_ofStore (guarded_create id _)
    cases BrokerServer.computeRepostoreId mode o repoId <;> exact .ret _

/-- `join_overlay` looks for the key of a repo store before it adds one. -/
theorem guarded_joinOverlayProg (E : Env) (mode : ConfigMode) (user : PubKey) (o : OverlayId)
    (repoId : Option PubKey) (secret : SymKey) (peers : List PeerAdvert) :
    Guarded (BrokerServer.joinOverlayProg E mode user o repoId secret peers).run.run := by
  have hopen : Guarded (Overlay.openId o).run :=
    guarded_of_touches (e := .overlay o) [] nofun (.openRecord RecordOp.touches_read)
  have hmember : Guarded (do
      BrokerServer.addPeers o peers
      Account.openId user
      Account.addOverlay user o : BrokerProgE Unit).run := by
    refine guarded_bindE (guarded_addPeers o peers) fun _ => guarded_bindE ?_ fun _ => ?_
    · exact guarded_of_touches (e := .account user) [] nofun
        (.openRecord RecordOp.touches_read)
    · exact guarded_of_touches (e := .account user) _ nofun
        (.add RecordOp.touches_read (RecordOp.touches_write (List.mem_singleton_self _) rfl))
  refine guarded_bindS (guarded_result hopen) fun res => ?_
  split
  · exact guarded_bindS (guarded_createOverlay ..) fun _ => guarded_ofStore hmember
  · exact .ret _
  · exact guarded_ofStore hmember

end RepoKeys

/-! ## Concurrent joins -/

/-- The arguments of a call of `join_overlay`. -/
structure JoinCall where
  env : Env
  user : PubKey
  overlayId : OverlayId
  repoId : Option PubKey
  secret : SymKey
  peers : List PeerAdvert

/-- Every repo store has one key at most. -/
def OneKey (s : LmdbBrokerStore) : Prop := ∀ id, (s.values (RepoStoreInfo.keyProperty id)).card ≤ 1

theorem oneKey_iff {s : LmdbBrokerStore} :
    OneKey s ↔ ∀ id v v', repoKeys.Holds s id v → repoKeys.Holds s id v' → v = v' := by
  unfold OneKey
  simp only [Finset.card_le_one, MultiMap.mem_values]
  exact forall_congr' fun id => ⟨fun h v v' hv hv' => h v hv v' hv',
    fun h v hv v' hv' => h v v' hv hv'⟩

section Joins

variable {ι : Type}

/-- Calls of `join_overlay` on one broker, none of which has started. -/
def joins (mode : ConfigMode) (J : ι → JoinCall) (s : LmdbBrokerStore) :
    Pool brokerStore LmdbBrokerStore ι (Option (Except ProtocolError Unit)) where
  state := s
  progs i := (BrokerServer.joinOverlayProg (J i).env mode (J i).user (J i).overlayId (J i).repoId
    (J i).secret (J i).peers).run.run

theorem safe_joins {mode : ConfigMode} {J : ι → JoinCall} {s : LmdbBrokerStore} (hs : OneKey s) :
    repoKeys.Safe (joins mode J s) :=
  .of_guarded (oneKey_iff.mp hs) fun _ => RepoKeys.guarded_joinOverlayProg ..

/-- As long as no call looks for the key of a repo store while another call is between its look and
its addition, every repo store has one key at most, which stays the same once it has been set. -/
theorem repo_keys_unique [DecidableEq ι] {mode : ConfigMode}
    {J : ι → JoinCall} {s : LmdbBrokerStore}
    (hs : OneKey s) {w w' : Pool brokerStore LmdbBrokerStore ι (Option (Except ProtocolError Unit))}
    (hw : Pool.Reachable exec repoKeys.Exclusive (joins mode J s) w)
    (hw' : Pool.Reachable exec repoKeys.Exclusive w w') :
    OneKey w.state ∧ ∀ id key, runOn (RepoStoreInfo.key id) w.state = (.ok key, w.state) →
      runOn (RepoStoreInfo.key id) w'.state = (.ok key, w'.state) := by
  obtain ⟨hsafe, -⟩ := CheckThenAct.single_of_reachable (safe_joins hs) hw
  obtain ⟨hsafe', hkept⟩ := CheckThenAct.single_of_reachable hsafe hw'
  refine ⟨oneKey_iff.mpr hsafe.single, fun id key hkey => ?_⟩
  obtain ⟨v, hfirst, hdecode⟩ := (Record.runOn_property_eq_ok _).mp hkey
  refine (Record.runOn_property_eq_ok _).mpr ⟨v, ?_, hdecode⟩
  have hv : repoKeys.Holds w'.state id v := hkept id v (MultiMap.first_mem hfirst)
  exact MultiMap.first_of_unique hv fun v' hv' => hsafe'.single id v' v hv' hv

end Joins

namespace TwoUsers

/-- Two users join two overlays of one repo. -/
def joinCalls (second : Bool) : JoinCall where
  env := { env with randomBuf := .replicate 32 (if second then 8 else 7) }
  user := if second then bob else alice
  overlayId := if second then ⟨.replicate 32 5⟩ else overlay
  repoId := some ⟨.replicate 32 6⟩
  secret := ⟨.replicate 32 4⟩
  peers := []

/-- The broker before the two calls. -/
def started : Pool brokerStore LmdbBrokerStore Bool (Option (Except ProtocolError Unit)) :=
  joins .localMode joinCalls ∅

/-- One of the calls is served for a while. -/
def served (second : Bool) (n : ℕ)
    (w : Pool brokerStore LmdbBrokerStore Bool (Option (Except ProtocolError Unit))) :
    Pool brokerStore LmdbBrokerStore Bool (Option (Except ProtocolError Unit)) :=
  (fun w => w.step repoKeys.exec second)^[n] w

/-- The two calls have taken turns. -/
def raced : Pool brokerStore LmdbBrokerStore Bool (Option (Except ProtocolError Unit)) :=
  [false, true, false, true, false, true, false, true, false, true, false, true, false, true].foldl
    (Pool.step exec) started

end TwoUsers

open TwoUsers in
theorem repo_keys_unique_sequential :
    OneKey (served false 9 started).state ∧ ∀ id key,
      runOn (RepoStoreInfo.key id) (served false 9 started).state =
        (.ok key, (served false 9 started).state) →
      runOn (RepoStoreInfo.key id) (served true 9 (served false 9 started)).state =
        (.ok key, (served true 9 (served false 9 started)).state) := by
  have hempty : OneKey ∅ := fun id => by simp [MultiMap.values]
  have hfirst : Pool.Reachable exec repoKeys.Exclusive started (served false 9 started) := by
    refine CheckThenAct.reachable_alone (C := repoKeys) (fun j hj key v hnext => ?_) 9
    -- the second call has not started
    have hopen : (started.progs true).nextCall =
      some (.get 111 (Overlay.record ⟨.replicate 32 5⟩).id
      (some Overlay.SECRET)) := rfl
    cases j with
    | false => exact hj rfl
    | true =>
      rw [hopen] at hnext
      cases hnext
  have hsecond : Pool.Reachable exec repoKeys.Exclusive (served false 9 started)
      (served true 9 (served false 9 started)) := by
    refine CheckThenAct.reachable_alone (C := repoKeys) (fun j hj key v hnext => ?_) 9
    -- the first call has returned
    have hdone : ((served false 9 started).progs false).nextCall = none := by decide +kernel
    cases j with
    | false =>
      rw [hdone] at hnext
      cases hnext
    | true => exact hj rfl
  exact repo_keys_unique hempty hfirst hsecond

open TwoUsers in
/-- Two calls that look for the key of a repo store before either has added one give it two keys. -/
theorem not_repo_keys_unique :
    ¬ ∀ (ι : Type) [DecidableEq ι] (mode : ConfigMode) (J : ι → JoinCall) (s : LmdbBrokerStore),
      OneKey s → (∀ i j, i ≠ j → (J i).env.randomBuf ≠ (J j).env.randomBuf) →
      ∀ w, Pool.Reachable exec (fun _ _ => True) (joins mode J s) w → OneKey w.state := by
  intro h
  have hempty : OneKey ∅ := fun id => by simp [MultiMap.values]
  have hreach : Pool.Reachable exec (fun _ _ => True) started raced :=
    Pool.Reachable.foldl _ fun _ _ _ => trivial
  have hone := h Bool .localMode joinCalls ∅ hempty (by decide) raced hreach
    (.repo ⟨.replicate 32 6⟩)
  have htwo :
      (raced.state.values (RepoStoreInfo.keyProperty (.repo ⟨.replicate 32 6⟩))).card = 2 := by
    decide +kernel
  omega

end Lofire
