import Lofire.Broker.Restart

/-!
# Brokers in core mode

A broker in core mode opens the repo store of an overlay while it holds the guard of the read lock
of the repo stores, and so waits for itself. No repo store is ever open: in the life of such a
broker every request about a repo store fails or does not return, and the repo stores are never
written (`core_serves_nothing`).
-/

namespace Lofire

open Lib LmdbBrokerStore

namespace BrokerServer

variable {P : Primitives} {W : Wire} {E : Env} {sv sv' : BrokerServer} {o : OverlayId} {α : Type}

/-! ## The mode of a broker -/

section Mode

variable {s s' : LmdbBrokerStore} {mode : ConfigMode}

/-- A mode that is accepted is the one in the records. -/
theorem run_getOrCreate_ok
    (h : (Config.getOrCreate mode).run.run exec s = (some (.ok ()), s')) :
    runOn Config.mode s' = (.ok mode, s') := by
  have hopen : Config.openConfig.run.run exec s =
      (if Config.record.Exists s then .ok () else .error .notFound, s) :=
    Config.record.runOn_openRecord
  unfold Config.getOrCreate at h
  rw [OptionT.run_mk, Prog.run_bind, hopen] at h
  by_cases hexists : Config.record.Exists s
  · have hstate : (Config.mode.run.run exec s).2 = s := Record.runOn_property_state _
    rw [if_pos hexists] at h
    dsimp only at h
    rw [Prog.run_bind] at h
    cases hread : Config.mode.run.run exec s with | mk res s₁ => ?_
    rw [hread] at h hstate
    obtain rfl : s₁ = s := hstate
    rcases res with e | m
    · cases h
    · change (some (if m = mode then Except.ok () else .error StorageError.invalidValue),
        s₁) = _ at h
      by_cases hm : m = mode
      · rw [if_pos hm] at h
        cases h
        rw [← hm]
        exact hread
      · rw [if_neg hm] at h
        cases h
  · have hcheck : runOn Config.record.checkNew s = (.ok (), s) := by
      rw [Record.runOn_checkNew, if_neg hexists]
    have hcreate : (Config.create mode).run.run exec s = (.ok (),
        insert (Config.record.prop Config.MODE, Config.configMode.encode mode) s) :=
      runOn_bind_ok hcheck _
    rw [if_neg hexists] at h
    dsimp only at h
    rw [Prog.run_bind, hcreate] at h
    cases h
    refine Record.runOn_property_single (mem_insert_first fun v hv => hexists ?_)
    exact hasValue_iff.mpr ⟨v, hv⟩

/-- A broker that starts is in the mode it was started in, and has no repo store open. -/
theorem new_mode {store : LmdbBrokerStore} {disk : RepoStoreId → LmdbRepoStore}
    (h : BrokerServer.new store mode disk = some (.ok sv)) :
    sv.mode = mode ∧ sv.repoStores = ∅ ∧ sv.disk = disk := by
  unfold BrokerServer.new at h
  split at h
  · rename_i mode' store' hrun
    cases h
    refine ⟨?_, rfl, rfl⟩
    unfold configMode at hrun
    rw [OptionT.run_bind, Option.elimM, Prog.run_bind] at hrun
    cases hget : (Config.getOrCreate mode).run.run exec store with | mk res s₁ => ?_
    rw [hget] at hrun
    rcases res with _ | e | ⟨⟨⟩⟩
    · cases hrun
    · cases hrun
    · have hmode : Config.mode.run.run exec s₁ = (.ok mode, s₁) := run_getOrCreate_ok hget
      change Prog.run exec (Config.mode.run >>= fun res => pure (some res)) s₁ = _ at hrun
      rw [Prog.run_bind, hmode] at hrun
      cases hrun
      rfl
  · cases h
  · cases h

end Mode

/-! ## Requests -/

/-- A broker in core mode without an open repo store, with the repo stores `disk`. -/
structure CoreClosed (disk : RepoStoreId → LmdbRepoStore) (sv : BrokerServer) : Prop where
  mode_eq : sv.mode = .coreMode
  closed : sv.repoStores = ∅
  disk_eq : sv.disk = disk

variable {disk : RepoStoreId → LmdbRepoStore}

theorem CoreClosed.new {store : LmdbBrokerStore}
    (h : BrokerServer.new store .coreMode disk = some (.ok sv)) : CoreClosed disk sv :=
  let ⟨hmode, hclosed, hdisk⟩ := new_mode h
  ⟨hmode, hclosed, hdisk⟩

/-- A request about a repo store that returns has failed. -/
theorem CoreClosed.serve_get (h : CoreClosed disk sv) {f : StoreM ClockedStore (RepoResult α)}
    {res : Except ProtocolError α}
    (hserve : sv.serve (getRepostoreFromOverlayId E o f) = some (res, sv')) :
    (∃ e, res = .error e) ∧ sv' = sv := by
  have hmem : RepoStoreId.overlay o ∉ sv.repoStores := by
    rw [h.closed]
    exact Finset.notMem_empty _
  have hresolve : sv.serve (resolveRepostore E o) = sv.serve
      (openRepostore E true (.overlay o) >>= fun _ => pure (.overlay o)) := by
    rw [serve_resolveRepostore, h.mode_eq]
    dsimp only
    rw [if_neg hmem]
  rw [getRepostoreFromOverlayId_eq, serve_bind_eq, hresolve, serve_bind_eq] at hserve
  by_cases hopen : Openable E sv (.overlay o)
  · obtain ⟨key, hnone⟩ := hopen.serve_openRepostore true
    rw [Bool.or_true, if_pos rfl] at hnone
    rw [hnone] at hserve
    cases hserve
  · obtain ⟨e, he⟩ := serve_openRepostore_of_not hopen true
    rw [he] at hserve
    cases hserve
    exact ⟨⟨e, rfl⟩, rfl⟩

/-- The reply to a request about a repo store is an error. -/
theorem CoreClosed.event_onOverlay (h : CoreClosed disk sv) {user : PubKey} {msg : BrokerMessage}
    (hoverlay : msg.repoStoreOverlay = some o) {out : Option (BrokerMessage × Option Later)}
    (hevent : event P W sv (.request E user msg) = some (out, sv')) :
    (∃ reply e, out = some (reply, none) ∧ reply.result = some (ProtocolError.toU16 e)) ∧
      sv' = sv := by
  obtain ⟨α, x, reply, ⟨⟨f, rfl⟩, hreply⟩, heq⟩ :=
    (@runs_onOverlay P W E user msg o hoverlay).event_eq
  rw [heq] at hevent
  obtain ⟨⟨res, sv₁⟩, hserve, hout⟩ := Option.map_eq_some_iff.mp hevent
  cases hout
  obtain ⟨⟨e, rfl⟩, hsv⟩ := h.serve_get hserve
  obtain ⟨hresult, hlater⟩ := hreply e
  refine ⟨⟨(reply (.error e)).1, e, ?_, hresult⟩, hsv⟩
  rw [← hlater]

theorem CoreClosed.event (h : CoreClosed disk sv) {e : BrokerEvent}
    {out : Option (BrokerMessage × Option Later)}
    (hevent : event P W sv e = some (out, sv')) : CoreClosed disk sv' := by
  cases e with
  | restart =>
    unfold BrokerServer.event at hevent
    dsimp only at hevent
    rw [h.mode_eq] at hevent
    split at hevent
    · rename_i sv₁ hnew
      cases hevent
      exact .new (h.disk_eq ▸ hnew)
    · cases hevent
  | request E user msg =>
    cases hoverlay : msg.repoStoreOverlay with
    | none =>
      rcases @runs_onRecords P W E user msg hoverlay with hpanic | hruns
      · rw [event_panic hpanic] at hevent
        cases hevent
      · obtain ⟨α, x, reply, hx, heq⟩ := hruns.event_eq
        rw [heq] at hevent
        obtain ⟨⟨res, sv₁⟩, hserve, hout⟩ := Option.map_eq_some_iff.mp hevent
        cases hout
        obtain ⟨store, rfl⟩ := hx.frame hserve
        exact ⟨h.mode_eq, h.closed, h.disk_eq⟩
    | some o =>
      rw [(h.event_onOverlay hoverlay hevent).2]
      exact h

end BrokerServer

open BrokerServer in
/-- In the life of a core broker, with any requests, restarts and answers of the outside world, the
repo stores stay as they are, and a request about one of them is answered with an error, or not at
all. -/
theorem core_serves_nothing {P : Primitives} {W : Wire} {store : LmdbBrokerStore}
    {disk : RepoStoreId → LmdbRepoStore} {sv : BrokerServer}
    (hnew : BrokerServer.new store .coreMode disk = some (.ok sv)) {events : List BrokerEvent}
    {replies : List (Option (BrokerMessage × Option Later))} {sv' : BrokerServer}
    (hrun : observe (event P W) nothing sv events = some (replies, sv')) :
    sv'.disk = disk ∧ ∀ E user msg o out sv'', BrokerMessage.repoStoreOverlay msg = some o →
      event P W sv' (.request E user msg) = some (out, sv'') → sv'' = sv' ∧
        ∃ reply code, out = some (reply, none) ∧ reply.result = some code ∧ code ≠ 0 := by
  have h : CoreClosed disk sv' :=
    observe_invariant (C := fun _ => True) (fun _ h hevent => h.event hevent) (fun _ _ => trivial)
      (.new hnew) hrun
  refine ⟨h.disk_eq, fun E user msg o out sv'' hoverlay hevent => ?_⟩
  obtain ⟨⟨reply, e, hout, hresult⟩, hsv⟩ := h.event_onOverlay hoverlay hevent
  exact ⟨hsv, reply, e.toU16, hout, hresult, e.toU16_ne_zero⟩

namespace CoreLife

open TwoUsers RestartedTwice BrokerServer

def newCore : BrokerServer where
  store := {(Config.record.prop Config.MODE, Config.configMode.encode .coreMode)}
  mode := .coreMode
  repoStores := ∅
  overlayidToRepostore _ := none
  disk _ := .empty

theorem new_newCore : BrokerServer.new ∅ .coreMode (fun _ => .empty) = some (.ok newCore) := rfl

/-- The user asks an overlay for a block, after a restart. -/
def life : List BrokerEvent :=
  let get : BlockGet := ⟨⟨.replicate 32 8⟩, false, none⟩
  [.restart, .request env alice (.v0 (.brokerOverlayMessage
    ⟨overlay, .brokerOverlayRequest ⟨1, .blockGet get⟩⟩) [])]

theorem core_serves_nothing_life : ∃ replies sv',
    observe (event P wire) nothing newCore life = some (replies, sv') ∧
    sv'.disk = (fun _ => .empty) ∧ ∀ E user msg o out sv'',
      BrokerMessage.repoStoreOverlay msg = some o →
      event P wire sv' (.request E user msg) = some (out, sv'') → sv'' = sv' ∧
        ∃ reply code, out = some (reply, none) ∧ reply.result = some code ∧ code ≠ 0 := by
  have hreturns : (observe (event P wire) nothing newCore life).isSome = true := by decide +kernel
  obtain ⟨⟨replies, sv'⟩, hrun⟩ := Option.isSome_iff_exists.mp hreturns
  exact ⟨replies, sv', hrun, core_serves_nothing new_newCore hrun⟩

end CoreLife

end Lofire
