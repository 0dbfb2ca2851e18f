import Lofire.Broker.CoreMode
import Lofire.Broker.Separation
import Lofire.Broker.SyncStream
import Lofire.Lmdb.BlockMap

/-!
# What a local broker is for

Its users can not tell a local broker from a machine that has the records and a map of blocks for
each repo, and nothing else (`PlainBroker`): no table of metas, expiries and uses, no repo store
that has to be opened, no cache of overlays, no lock, nothing in memory that a restart could lose.
A pin is a request that does nothing. The broker refines this machine (`refines_plainBroker`).
-/

namespace Lofire

open Lib LmdbBrokerStore

/-! ## Requests about the blocks of a repo -/

/-- The result of a request about a repo: it is done, or some blocks are to be sent. -/
inductive RepoReply
  | done (res : Except ProtocolError Unit)
  | stream (res : Except ProtocolError (List Block))

namespace RepoReply

def message (W : Wire) (id : UInt64) (overlay : OverlayId) :
    RepoReply → BrokerMessage × Option Later
  | done res =>
    (BrokerProtocolHandler.prepareReplyBrokerOverlayMessage res id overlay none 20, none)
  | stream res => BrokerProtocolHandler.sendBlockStreamResponseToClient W res id overlay 20

/-- The result of a request that fails before it comes to the blocks. -/
def failed (e : ProtocolError) : BrokerOverlayRequestContent → RepoReply
  | .blockGet _ | .branchSyncReq _ => stream (.error e)
  | _ => done (.error e)

end RepoReply

namespace BlockMap

section

variable (P : Primitives) (E : Env) (m : BlockMap)

/-- The object with the root `id`. -/
def load (id : ObjectId) : RepoResult Object :=
  (Object.loadView P m.view id none E.fuel).map fun res => res.mapError fun _ => .notFound

/-- The blocks of an object are sent, or one block. -/
def getBlock (b : BlockGet) : RepoResult (List Block) :=
  if b.includeChildren then
    (m.load P E b.id).map fun res => res.map fun o =>
      (BrokerServer.sendBlocks P o.blocks ⟨[], ∅⟩).blocks
  else some (((m.view b.id).map fun block => [block]).mapError .ofStorageError)

/-- The blocks of the commits `ids` are sent. -/
def sendObjects : List ObjectId → BrokerServer.Sent → RepoResult (List Block)
  | [], sent => some (.ok sent.blocks)
  | id :: ids, sent =>
    match Object.loadView P m.view id none E.fuel with
    | none => none
    | some (.error e) => some (.error (.ofObjectParseError e))
    | some (.ok o) => sendObjects ids (BrokerServer.sendBlocks P o.blocks sent)

def syncBranch (b : BranchSyncReq) : RepoResult (List Block) :=
  match Branch.syncReq (m := Id) P E.order m.view E.fuel b.heads b.knownHeads b.knownCommits with
  | none => none
  | some (.error _) => some (.error .objectParseError)
  | some (.ok ids) => m.sendObjects P E ids ⟨[], ∅⟩

/-- What becomes of the blocks if the object is found; `after` takes the ids of its blocks. -/
def onObject (after : List BlockId → BlockMap) : Except ProtocolError Object → BlockMap
  | .ok o => after (o.blocks.map (Block.id P))
  | .error _ => m

/-- The result of a request, and the blocks after it; none if it does not return. -/
def answer : BrokerOverlayRequestContent → Option (RepoReply × BlockMap)
  | .blockGet b => (m.getBlock P E b).map fun res => (.stream res, m)
  | .branchSyncReq b => (m.syncBranch P E b).map fun res => (.stream res, m)
  | .blockPut b => some (.done (.ok ()), m.put P b)
  | .objectPin id => (m.load P E id).map fun res => (.done (res.map fun _ => ()), m)
  | .objectUnpin id => (m.load P E id).map fun res => (.done (res.map fun _ => ()), m)
  | .objectDel id => (m.load P E id).map fun res =>
    (.done (res.map fun _ => ()), m.onObject P m.without res)
  | _ => none

end

end BlockMap

/-- The overlay, the id and the content of a request about a repo store. -/
def BrokerMessage.repoStoreRequest :
    BrokerMessage → Option (OverlayId × UInt64 × BrokerOverlayRequestContent)
  | .v0 (.brokerOverlayMessage ⟨overlay, .brokerOverlayRequest r⟩) _ =>
    if r.content.usesRepoStore then some (overlay, r.id, r.content) else none
  | _ => none

/-! ## The machine -/

/-- The records, and the blocks of every repo. -/
structure PlainBroker where
  records : LmdbBrokerStore
  blocks : PubKey → BlockMap

namespace PlainBroker

/-- The repo of an overlay, by the records. -/
def repo (b : PlainBroker) (o : OverlayId) : Except ProtocolError PubKey :=
  (runOn (do
    Overlay.openId o
    Overlay.repo o) b.records).1.mapError .ofStorageError

/-- A broker that has just been started, on the records alone. -/
def started (b : PlainBroker) : BrokerServer where
  store := b.records
  mode := .localMode
  repoStores := ∅
  overlayidToRepostore _ := none
  disk _ := .empty

/-- The machine after an event, and the reply if it is a request. Users and overlays are managed in
the records as the handler does it; a request about a repo store is answered from the blocks. -/
def event (P : Primitives) (W : Wire) (b : PlainBroker) :
    BrokerEvent → Option (Option (BrokerMessage × Option Later) × PlainBroker)
  | .restart => some (none, b)
  | .request E user msg =>
    match msg.repoStoreRequest with
    | some (overlay, id, content) =>
      match b.repo overlay with
      | .error e => some (some ((RepoReply.failed e content).message W id overlay), b)
      | .ok r => ((b.blocks r).answer P E content).map fun out =>
        (some (out.1.message W id overlay),
          { b with blocks := Function.update b.blocks r out.2 })
    | none => (b.started.event P W (.request E user msg)).map fun out =>
      (out.1, { b with records := out.2.store })

end PlainBroker

/-- The blocks that are put are of `B`. -/
def BrokerEvent.PutsFrom (B : Set Block) : BrokerEvent → Prop
  | .request _ _ msg => ∀ o id b, msg.repoStoreRequest = some (o, id, .blockPut b) → b ∈ B
  | .restart => True

/-! ## The operations on the blocks -/

/-- What a loop over the blocks of an object keeps that does `f` once for every id. -/
theorem forDistinct_run {σ ε : Type} {P : Primitives} {f : Block → StoreM σ (Except ε Unit)}
    {I : List BlockId → σ → Prop} {blocks : List Block}
    (hf : ∀ b ∈ blocks, ∀ done s, b.id P ∉ done → I done s →
      ∃ s', f b s = .ok (.ok ()) s' ∧ I (b.id P :: done) s') (done : List BlockId) (s : σ)
    (h : I done s) : ∃ done' s', Object.forDistinct P f blocks done s = .ok (.ok ()) s' ∧
      I done' s' ∧ ∀ x, x ∈ done' ↔ x ∈ done ∨ x ∈ blocks.map (Block.id P) := by
  induction blocks generalizing done s with
  | nil => exact ⟨done, s, rfl, h, fun x => by simp⟩
  | cons b blocks ih =>
    obtain ⟨hb, hf⟩ := List.forall_mem_cons.mp hf
    unfold Object.forDistinct
    by_cases hid : b.id P ∈ done
    · obtain ⟨done', s', hrun, hI, hmem⟩ := ih hf done s h
      refine ⟨done', s', ?_, hI, fun x => ?_⟩
      · dsimp only
        rw [if_pos hid]
        exact hrun
      · rw [hmem, List.map_cons, List.mem_cons]
        constructor
        · rintro (hx | hx)
          · exact .inl hx
          · exact .inr (.inr hx)
        · rintro (hx | rfl | hx)
          · exact .inl hx
          · exact .inl hid
          · exact .inr hx
    · obtain ⟨s₁, hfb, hI₁⟩ := hb done s hid h
      obtain ⟨done', s', hrun, hI, hmem⟩ := ih hf (b.id P :: done) s₁ hI₁
      refine ⟨done', s', ?_, hI, fun x => ?_⟩
      · dsimp only
        rw [if_neg hid]
        exact StoreM.bind_ok.mpr ⟨.ok (), s₁, hfb, hrun⟩
      · rw [hmem, List.map_cons, List.mem_cons, List.mem_cons, or_assoc, or_left_comm]

section Plays

variable {P : Primitives} {B : Set Block} {E : Env} {α β : Type}
  {f : StoreM ClockedStore (RepoResult α)} {wrap : Except ProtocolError α → RepoReply}
  {content : BrokerOverlayRequestContent}

/-- What an operation on a repo store returns, and the blocks after it. -/
def outcome (P : Primitives) (f : StoreM ClockedStore (RepoResult α)) (c : ClockedStore) :
    Option (Except ProtocolError α × BlockMap) :=
  match f c with
  | .ok (some res) c' => some (res, c'.store.blocks P)
  | _ => none

/-- The operation `f` does to a repo store what the request does to its blocks. -/
structure Plays (P : Primitives) (B : Set Block) (E : Env) (f : StoreM ClockedStore (RepoResult α))
    (wrap : Except ProtocolError α → RepoReply) (content : BrokerOverlayRequestContent) : Prop where
  outcome_eq : ∀ {s clock}, LmdbRepoStore.Unsynced P B s →
    (outcome P f ⟨s, clock⟩).map (Prod.map wrap id) = (s.blocks P).answer P E content
  unsynced : ∀ {s clock res c}, LmdbRepoStore.Unsynced P B s →
    f ⟨s, clock⟩ = .ok (some res) c → LmdbRepoStore.Unsynced P B c.store

/-- An operation that only reads. -/
theorem Plays.of_idle (read : BlockMap → RepoResult α)
    (hf : ∀ s, LmdbRepoStore.Unsynced P B s →
      (ClockedStore.idle s).rel f (read (s.blocks P)))
    (hanswer : ∀ m, BlockMap.answer P E m content = (read m).map fun res => (wrap res, m)) :
    Plays P B E f wrap content where
  outcome_eq {s clock} h := by
    obtain ⟨clock', hrun⟩ := hf s h clock
    rw [hanswer, outcome, hrun]
    cases read (s.blocks P) <;> rfl
  unsynced {s clock res c} h hrun := by
    obtain ⟨clock', hrun'⟩ := hf s h clock
    rw [hrun] at hrun'
    obtain ⟨-, rfl⟩ := EStateM.Result.ok.inj hrun'
    exact h

theorem sendObjects_idle (hP : P.SerdeLaws) (hB : ∀ b ∈ B, b.Valid P) {s : LmdbRepoStore}
    (h : LmdbRepoStore.Unsynced P B s) (ids : List ObjectId) (sent : BrokerServer.Sent) :
    (ClockedStore.idle s).rel (BrokerServer.sendObjects P E ids sent)
      ((s.blocks P).sendObjects P E ids sent) := by
  induction ids generalizing sent with
  | nil => exact (ClockedStore.idle s).pure _
  | cons id ids ih =>
    refine (ClockedStore.idle s).bind (h.load_idle hP hB E.appendDup E.fuel id) ?_
    unfold BlockMap.sendObjects
    rcases Object.loadView P (s.blocks P).view id none E.fuel with _ | e | o
    · exact (ClockedStore.idle s).pure _
    · exact (ClockedStore.idle s).pure _
    · exact ih _

theorem plays_getBlock (hP : P.SerdeLaws) (hB : ∀ b ∈ B, b.Valid P) (o : OverlayId)
    (b : BlockGet) : ∃ f, BrokerServer.getBlock P E o b.id b.includeChildren =
      BrokerServer.getRepostoreFromOverlayId E o f ∧ Plays P B E f .stream (.blockGet b) := by
  refine ⟨_, rfl, .of_idle (fun m => m.getBlock P E b) (fun s h => ?_) fun m => rfl⟩
  unfold BlockMap.getBlock BlockMap.load
  cases b.includeChildren with
  | false =>
    exact (ClockedStore.idle s).bind (h.get_idle hP hB E.appendDup b.id)
      ((ClockedStore.idle s).pure _)
  | true =>
    refine (ClockedStore.idle s).bind (h.load_idle hP hB E.appendDup E.fuel b.id) ?_
    rcases Object.loadView P (s.blocks P).view b.id none E.fuel with _ | e | o <;>
      exact (ClockedStore.idle s).pure _

theorem plays_syncBranch (hP : P.SerdeLaws) (hB : ∀ b ∈ B, b.Valid P) (o : OverlayId)
    (b : BranchSyncReq) : ∃ f, BrokerServer.syncBranch P E o b.heads b.knownHeads b.knownCommits =
      BrokerServer.getRepostoreFromOverlayId E o f ∧ Plays P B E f .stream (.branchSyncReq b) := by
  refine ⟨_, rfl, .of_idle (fun m => m.syncBranch P E b) (fun s h => ?_) fun m => rfl⟩
  have hsync : (ClockedStore.idle s).rel
      (Branch.syncReq P E.order (ClockedStore.get P E.appendDup) E.fuel b.heads b.knownHeads
        b.knownCommits) _ :=
    Branch.syncReq_yields _ (h.get_idle hP hB E.appendDup) E.order E.fuel b.heads b.knownHeads
      b.knownCommits
  refine (ClockedStore.idle s).bind hsync ?_
  unfold BlockMap.syncBranch
  rcases Branch.syncReq (m := Id) P E.order (s.blocks P).view E.fuel b.heads b.knownHeads
    b.knownCommits with _ | e | ids
  · exact (ClockedStore.idle s).pure _
  · exact (ClockedStore.idle s).pure _
  · exact sendObjects_idle hP hB h ids _

theorem plays_putBlock (hP : P.SerdeLaws) (hdistinct : LmdbRepoStore.IdsDistinct P B) {b : Block}
    (hb : b ∈ B) :
    Plays P B E (do
      let res ← ClockedStore.put P b
      return some ((res.map fun _ => ()).mapError .ofStorageError)) .done (.blockPut b) where
  outcome_eq {s clock} _ := by
    show some (RepoReply.done (.ok ()), (LmdbRepoStore.putTxn P b s).blocks P) = _
    rw [LmdbRepoStore.blocks_putTxn hP]
    rfl
  unsynced h hrun := by
    cases hrun
    exact h.putTxn hP hdistinct hb

/-- An operation on every block of an object: `after m ids` is the map of blocks `m` after the
operation on the blocks `ids`. -/
theorem plays_onBlocks (hP : P.SerdeLaws) (hB : ∀ b ∈ B, b.Valid P)
    {op : BlockId → StoreM ClockedStore (Except StorageError β)} {id : ObjectId}
    (after : BlockMap → List BlockId → BlockMap) (hnil : ∀ m, after m [] = m)
    (hcongr : ∀ m ids ids', (∀ x, x ∈ ids ↔ x ∈ ids') → after m ids = after m ids')
    (hop : ∀ {m : BlockMap} {ids : List BlockId} {x : BlockId} {b : Block} {s : LmdbRepoStore}
      {clock : Nat → Timestamp}, LmdbRepoStore.Unsynced P B s → s.blocks P = after m ids →
      x ∉ ids → m x = some b → ∃ r s', op x ⟨s, clock⟩ = .ok (.ok r) ⟨s', clock⟩ ∧
        LmdbRepoStore.Unsynced P B s' ∧ s'.blocks P = after m (x :: ids))
    (hanswer : ∀ m, BlockMap.answer P E m content = (m.load P E id).map fun res =>
      (.done (res.map fun _ => ()), m.onObject P (after m) res)) :
    Plays P B E (BrokerServer.onBlocks P E op id) .done content := by
  have hrun : ∀ s clock, LmdbRepoStore.Unsynced P B s →
      ∃ c, BrokerServer.onBlocks P E op id ⟨s, clock⟩ =
        .ok (((s.blocks P).load P E id).map fun res => res.map fun _ => ()) c ∧
        LmdbRepoStore.Unsynced P B c.store ∧
        ∀ res, (s.blocks P).load P E id = some res →
          c.store.blocks P = (s.blocks P).onObject P (after (s.blocks P)) res := by
    intro s clock h
    obtain ⟨clock', hload⟩ := h.load_idle hP hB E.appendDup E.fuel id clock
    unfold BlockMap.load
    cases hres : Object.loadView P (s.blocks P).view id none E.fuel with
    | none =>
      rw [hres] at hload
      exact ⟨_, StoreM.bind_ok.mpr ⟨_, _, hload, rfl⟩, h, nofun⟩
    | some res =>
      rw [hres] at hload
      rcases res with e | o
      · refine ⟨_, StoreM.bind_ok.mpr ⟨_, _, hload, rfl⟩, h, fun res hres => ?_⟩
        cases hres
        rfl
      · let I (ids : List BlockId) (c : ClockedStore) : Prop :=
          c.clock = clock' ∧ LmdbRepoStore.Unsynced P B c.store ∧
            c.store.blocks P = after (s.blocks P) ids
        have hstep : ∀ b ∈ o.blocks, ∀ ids c, b.id P ∉ ids → I ids c → ∃ c',
            (do return (← op (b.id P)).map fun _ => () :
              StoreM ClockedStore (Except StorageError Unit)) c = .ok (.ok ()) c' ∧
              I (b.id P :: ids) c' := by
          rintro b hb ids ⟨s₁, clock₁⟩ hid ⟨rfl, hunsynced, hblocks⟩
          obtain ⟨x, -, hx⟩ := (Object.mem_blocks_iff hres).mp hb
          have hfound := BlockMap.view_eq_ok.mp hx
          obtain rfl := h.blocks_id hP hB hfound
          obtain ⟨r, s', hr, hunsynced', hblocks'⟩ := hop hunsynced hblocks hid hfound
          exact ⟨_, StoreM.bind_ok.mpr ⟨_, _, hr, rfl⟩, rfl, hunsynced', hblocks'⟩
        obtain ⟨done', c, hloop, ⟨-, hunsynced, hblocks⟩, hmem⟩ :=
          forDistinct_run hstep [] ⟨s, clock'⟩ ⟨rfl, h, (hnil _).symm⟩
        refine ⟨c, StoreM.bind_ok.mpr ⟨_, _, hload, StoreM.bind_ok.mpr ⟨_, _, hloop, rfl⟩⟩,
          hunsynced, fun res hres => ?_⟩
        cases hres
        rw [hblocks]
        exact hcongr _ _ _ fun x => by simpa using hmem x
  constructor
  · intro s clock h
    obtain ⟨c, honBlocks, -, hblocks⟩ := hrun s clock h
    rw [hanswer, outcome, honBlocks]
    cases hload : (s.blocks P).load P E id with
    | none => rfl
    | some res =>
      show some (RepoReply.done _, c.store.blocks P) = _
      rw [hblocks res hload]
      rfl
  · intro s clock res c h honBlocks
    obtain ⟨c', honBlocks', hunsynced, -⟩ := hrun s clock h
    rw [honBlocks] at honBlocks'
    obtain ⟨-, rfl⟩ := EStateM.Result.ok.inj honBlocks'
    exact hunsynced

theorem plays_setPin (hP : P.SerdeLaws) (hB : ∀ b ∈ B, b.Valid P) (add : Bool) {id : ObjectId}
    (hanswer : ∀ m, BlockMap.answer P E m content =
      (m.load P E id).map fun res => (.done (res.map fun _ => ()), m)) :
    Plays P B E (BrokerServer.onBlocks P E
      (fun x => ClockedStore.lift (LmdbRepoStore.setPin E.appendDup x add)) id) .done content := by
  refine plays_onBlocks hP hB (fun m _ => m) (fun _ => rfl) (fun _ _ _ _ => rfl)
    (fun {m ids x b s clock} h hblocks _ _ => ?_) fun m => ?_
  · obtain ⟨s', hrun, h', hmain⟩ := h.setPinTxn E.appendDup x add
    refine ⟨(), s', ?_, h', (LmdbRepoStore.blocks_congr hmain).trans hblocks⟩
    unfold ClockedStore.lift LmdbRepoStore.setPin LmdbRepoStore.write
    simp only [hrun]
    rfl
  · rw [hanswer]
    rcases m.load P E id with _ | _ | _ <;> rfl

theorem plays_delObject (hP : P.SerdeLaws) (hB : ∀ b ∈ B, b.Valid P) (id : ObjectId) :
    Plays P B E (BrokerServer.onBlocks P E (ClockedStore.del P) id) .done (.objectDel id) := by
  refine plays_onBlocks hP hB BlockMap.without (fun _ => BlockMap.without_nil)
    (fun _ _ _ => BlockMap.without_congr) (fun {m ids x b s clock} h hblocks hx hb => ?_)
    fun m => ?_
  · have hstored : s.blocks P x = some b := by
      rw [hblocks, BlockMap.without, if_neg hx]
      exact hb
    obtain ⟨size, s', hrun, h', hblocks'⟩ := h.del hstored
    refine ⟨(b, size), s', ?_, h', ?_⟩
    · unfold ClockedStore.del ClockedStore.lift
      simp only [hrun]
    · rw [hblocks', hblocks]
      exact BlockMap.without_without ids [x]
  · rfl

end Plays

/-! ## The refinement -/

namespace BrokerServer

variable {P : Primitives} {W : Wire} {B : Set Block} {E : Env} {sv sv' : BrokerServer}
  {o : OverlayId} {r : PubKey} {user : PubKey} {msg : BrokerMessage} {α : Type}

/-- What the users of a local broker can see of it. -/
def forget (P : Primitives) (sv : BrokerServer) : PlainBroker where
  records := sv.store
  blocks r := (sv.disk (.repo r)).blocks P

/-- A local broker that has blocks of `B`, none of which is recorded as synced. -/
structure Plain (P : Primitives) (B : Set Block) (sv : BrokerServer) : Prop where
  known : sv.Known
  unsynced : ∀ r, LmdbRepoStore.Unsynced P B (sv.disk (.repo r))

theorem forget_repo_eq_ok : (sv.forget P).repo o = .ok r ↔ sv.RepoOf o r := by
  rw [← repo_eq_some]
  unfold PlainBroker.repo repo forget
  dsimp only
  generalize (runOn _ sv.store).1 = res
  cases res <;> simp [Except.mapError, Except.toOption]

/-- Why an overlay does not resolve is in the records. -/
theorem Known.serve_resolve_error (h : sv.Known) {e : ProtocolError}
    (he : (sv.forget P).repo o = .error e) :
    sv.serve (resolveRepostore E o) = some (.error e, sv) := by
  have hnot : ∀ r, ¬ sv.RepoOf o r := by
    intro r hr
    rw [forget_repo_eq_ok.mpr hr] at he
    cases he
  have hcached : sv.overlayidToRepostore o = none := by
    by_contra hcached
    obtain ⟨r, hr⟩ := h.repoOf hcached
    exact hnot r hr
  have hread : sv.serve (LockedM.readRepo o) = some (.error e, sv) := by
    obtain ⟨e', he'⟩ := serve_readRepo_of_not hnot
    have hresult : (sv.serve (LockedM.readRepo o)).map Prod.fst = some (.error e) := by
      unfold LockedM.readRepo
      rw [serve_records_eq, runServer_ofStore, ← he]
      rfl
    rw [he'] at hresult ⊢
    cases hresult
    rfl
  rw [serve_resolveRepostore, h.mode_eq]
  dsimp only
  rw [hcached]
  dsimp only
  rw [serve_bind_eq, hread]

section Serve

variable {f : StoreM ClockedStore (RepoResult α)} {wrap : Except ProtocolError α → RepoReply}
  {content : BrokerOverlayRequestContent}

/-- The broker does to the repo store of the overlay what the request does to its blocks. -/
theorem Plain.serve_eq (h : sv.Plain P B) (hE : E.Opens) (hplays : Plays P B E f wrap content)
    (hrepo : sv.RepoOf o r) :
    (sv.serve (getRepostoreFromOverlayId E o f)).map (Prod.map wrap (forget P)) =
      (((sv.forget P).blocks r).answer P E content).map fun out =>
        (out.1, { sv.forget P with blocks := Function.update (sv.forget P).blocks r out.2 }) := by
  obtain ⟨sv₁, hresolve, -, hstore, hdisk⟩ := h.known.serve_resolve hE hrepo
  rw [getRepostoreFromOverlayId_eq, serve_bind_of_ok hresolve, serve_onRepoStore_eq, hdisk]
  show _ = (((sv.disk (.repo r)).blocks P).answer P E content).map _
  rw [← hplays.outcome_eq (h.unsynced r)]
  unfold outcome
  cases hrun : f ⟨sv.disk (.repo r), E.clock⟩ with
  | error p c => rfl
  | ok res c =>
    cases res with
    | none => rfl
    | some res =>
      simp only [Option.map_some, Prod.map, forget, id_eq, hstore, Option.some.injEq,
        Prod.mk.injEq, true_and, PlainBroker.mk.injEq]
      funext r'
      by_cases hr : r' = r
      · subst hr
        rw [Function.update_self, Function.update_self]
      · have hid : RepoStoreId.repo r' ≠ .repo r := fun heq => hr (RepoStoreId.repo.inj heq)
        rw [Function.update_of_ne hr, Function.update_of_ne hid]

theorem Plain.serve (h : sv.Plain P B) (hE : E.Opens) (hplays : Plays P B E f wrap content)
    (hrepo : sv.RepoOf o r) {res : Except ProtocolError α}
    (hserve : sv.serve (getRepostoreFromOverlayId E o f) = some (res, sv')) : sv'.Plain P B := by
  obtain ⟨sv₁, hresolve, hknown, hstore, hdisk⟩ := h.known.serve_resolve hE hrepo
  rw [getRepostoreFromOverlayId_eq, serve_bind_of_ok hresolve] at hserve
  obtain ⟨c, hrun, rfl⟩ := serve_onRepoStore hserve
  rw [hdisk] at hrun
  refine ⟨hknown.of_disk _, fun r' => ?_⟩
  dsimp only
  rw [Function.update_apply, hdisk]
  split
  · exact hplays.unsynced (h.unsynced r) hrun
  · exact h.unsynced r'

end Serve

/-- The operation of a request about a repo store does to the repo store what the request does to
its blocks. -/
def OnBlocks (P : Primitives) (W : Wire) (B : Set Block) (E : Env) (o : OverlayId) (id : UInt64)
    (content : BrokerOverlayRequestContent) {α : Type} (x : ServerM α)
    (reply : Except ProtocolError α → BrokerMessage × Option Later) : Prop :=
  ∃ (f : StoreM ClockedStore (RepoResult α)) (wrap : Except ProtocolError α → RepoReply),
    x = getRepostoreFromOverlayId E o f ∧ (∀ res, reply res = (wrap res).message W id o) ∧
      Plays P B E f wrap content ∧ ∀ e, wrap (.error e) = .failed e content

theorem runs_onBlocks (hP : P.SerdeLaws) (hdistinct : LmdbRepoStore.IdsDistinct P B)
    (hB : ∀ b ∈ B, b.Valid P) {id : UInt64} {content : BrokerOverlayRequestContent}
    (hmsg : msg.repoStoreRequest = some (o, id, content))
    (hputs : ∀ b, content = .blockPut b → b ∈ B) :
    Runs P W E user msg (OnBlocks P W B E o id content) := by
  unfold BrokerMessage.repoStoreRequest at hmsg
  split at hmsg
  · rename_i overlay req padding
    split at hmsg
    · rename_i huses
      cases hmsg
      obtain ⟨id, content⟩ := req
      cases content with
      | blockGet b =>
        obtain ⟨f, hf, hplays⟩ := plays_getBlock (E := E) hP hB o b
        exact ⟨_, _, _, rfl, f, .stream, hf, fun _ => rfl, hplays, fun _ => rfl⟩
      | branchSyncReq b =>
        obtain ⟨f, hf, hplays⟩ := plays_syncBranch (E := E) hP hB o b
        exact ⟨_, _, _, rfl, f, .stream, hf, fun _ => rfl, hplays, fun _ => rfl⟩
      | blockPut b =>
        exact ⟨_, _, _, rfl, _, .done, rfl, fun _ => rfl,
          plays_putBlock hP hdistinct (hputs b rfl), fun _ => rfl⟩
      | objectPin oid =>
        exact ⟨_, _, _, rfl, _, .done, rfl, fun _ => rfl,
          plays_setPin hP hB true fun _ => rfl, fun _ => rfl⟩
      | objectUnpin oid =>
        exact ⟨_, _, _, rfl, _, .done, rfl, fun _ => rfl,
          plays_setPin hP hB false fun _ => rfl, fun _ => rfl⟩
      | objectDel oid =>
        exact ⟨_, _, _, rfl, _, .done, rfl, fun _ => rfl, plays_delObject hP hB oid, fun _ => rfl⟩
      | _ => cases huses
    · cases hmsg
  · cases hmsg

theorem repoStoreOverlay_eq_none (h : msg.repoStoreRequest = none) :
    msg.repoStoreOverlay = none := by
  obtain ⟨⟨id, content⟩ | ⟨id, result⟩ | ⟨overlay, r | ⟨id, result, content⟩ | e⟩, padding⟩ | _ :=
    msg
  · rfl
  · rfl
  · unfold BrokerMessage.repoStoreRequest at h
    unfold BrokerMessage.repoStoreOverlay
    dsimp only at h ⊢
    by_cases huses : r.content.usesRepoStore = true
    · rw [if_pos huses] at h
      cases h
    · exact if_neg huses
  · rfl
  · rfl
  · rfl

namespace Plain

/-- A broker with the same records that has just been started. -/
theorem sameOn_started (h : sv.Plain P B) : SameOn (fun _ => False) sv (sv.forget P).started :=
  ⟨h.known, ⟨rfl, h.known.recorded, h.known.localRecords, nofun⟩, rfl, nofun⟩

/-- A request that is not about a repo store leaves the repo stores alone. -/
theorem disk_eq_of_records (hmsg : msg.repoStoreRequest = none)
    {out : Option (BrokerMessage × Option Later)}
    (hevent : BrokerServer.event P W sv (.request E user msg) = some (out, sv')) :
    sv'.disk = sv.disk := by
  rcases @runs_onRecords P W E user msg (repoStoreOverlay_eq_none hmsg) with hpanic | hruns
  · rw [event_panic hpanic] at hevent
    cases hevent
  · obtain ⟨α, x, reply, hx, heq⟩ := hruns.event_eq
    rw [heq] at hevent
    obtain ⟨⟨res, sv₁⟩, hserve, hout⟩ := Option.map_eq_some_iff.mp hevent
    cases hout
    obtain ⟨store, rfl⟩ := hx.frame hserve
    rfl

/-- An event of the broker is an event of the machine. -/
theorem event_eq (hP : P.SerdeLaws) (hdistinct : LmdbRepoStore.IdsDistinct P B)
    (hB : ∀ b ∈ B, b.Valid P) {e : BrokerEvent} (he : e.Opens ∧ e.PutsFrom B)
    (h : sv.Plain P B) :
    (BrokerServer.event P W sv e).map (Prod.map id (forget P)) = (sv.forget P).event P W e := by
  obtain ⟨hopens, hputs⟩ := he
  cases e with
  | restart =>
    rw [h.known.event_restart]
    rfl
  | request E user msg =>
    unfold PlainBroker.event
    dsimp only
    cases hmsg : msg.repoStoreRequest with
    | none =>
      have hoverlay : ∀ o, msg.repoStoreOverlay = some o → ∀ repo, sv.RepoOf o repo → False := by
        intro o ho
        rw [repoStoreOverlay_eq_none hmsg] at ho
        cases ho
      dsimp only
      apply Option.ext
      intro seen
      rw [Option.map_eq_some_iff, Option.map_eq_some_iff]
      constructor
      · rintro ⟨⟨out, sv₁⟩, hevent, rfl⟩
        obtain ⟨sv₁', hevent', hsame⟩ := h.sameOn_started.event_request hopens hoverlay hevent
        refine ⟨(out, sv₁'), hevent', ?_⟩
        rw [← hsame.store_eq]
        simp only [Prod.map, forget, disk_eq_of_records hmsg hevent, id_eq]
      · rintro ⟨⟨out, sv₁'⟩, hevent', rfl⟩
        obtain ⟨sv₁, hevent, hsame⟩ := h.sameOn_started.symm.event_request hopens
          (fun o ho r hr => hoverlay o ho r (h.sameOn_started.repoOf.mpr hr)) hevent'
        refine ⟨(out, sv₁), hevent, ?_⟩
        rw [hsame.store_eq]
        simp only [Prod.map, forget, disk_eq_of_records hmsg hevent, id_eq]
    | some request =>
      obtain ⟨o, id, content⟩ := request
      have hruns : Runs P W E user msg (OnBlocks P W B E o id content) :=
        runs_onBlocks hP hdistinct hB hmsg fun b hb => hputs o id b (hb ▸ hmsg)
      obtain ⟨α, x, reply, ⟨f, wrap, rfl, hreply, hplays, hfailed⟩, heq⟩ := hruns.event_eq
      rw [heq]
      dsimp only
      cases hrepo : (sv.forget P).repo o with
      | error e =>
        rw [getRepostoreFromOverlayId_eq, serve_bind_eq, h.known.serve_resolve_error hrepo]
        simp only [Option.map_some, Prod.map, hreply, hfailed, id_eq]
      | ok r =>
        have hserve := congrArg
          (Option.map fun seen => (some (seen.1.message W id o), seen.2))
          (h.serve_eq hopens hplays (forget_repo_eq_ok.mp hrepo))
        rw [Option.map_map, Option.map_map] at hserve
        rw [Option.map_map, funext hreply]
        exact hserve

/-- Its repo stores stay so. -/
theorem event (hP : P.SerdeLaws) (hdistinct : LmdbRepoStore.IdsDistinct P B)
    (hB : ∀ b ∈ B, b.Valid P) {e : BrokerEvent} (he : e.Opens ∧ e.PutsFrom B)
    (h : sv.Plain P B) {out : Option (BrokerMessage × Option Later)}
    (hevent : BrokerServer.event P W sv e = some (out, sv')) : sv'.Plain P B := by
  obtain ⟨hopens, hputs⟩ := he
  have hknown : sv'.Known := by
    have hsame : SameOn (fun _ => True) sv sv := ⟨h.known, h.known, rfl, fun _ _ => rfl⟩
    cases e with
    | restart => exact (hsame.event_restart hevent).left
    | request E user msg =>
      obtain ⟨_, -, hsame'⟩ := hsame.event_request hopens (fun _ _ _ _ => trivial) hevent
      exact hsame'.left
  cases e with
  | restart =>
    rw [h.known.event_restart] at hevent
    cases hevent
    exact ⟨hknown, h.unsynced⟩
  | request E user msg =>
    cases hmsg : msg.repoStoreRequest with
    | none =>
      refine ⟨hknown, ?_⟩
      rw [disk_eq_of_records hmsg hevent]
      exact h.unsynced
    | some request =>
      obtain ⟨o, id, content⟩ := request
      have hruns : Runs P W E user msg (OnBlocks P W B E o id content) :=
        runs_onBlocks hP hdistinct hB hmsg fun b hb => hputs o id b (hb ▸ hmsg)
      obtain ⟨α, x, reply, ⟨f, wrap, rfl, -, hplays, -⟩, heq⟩ := hruns.event_eq
      rw [heq] at hevent
      obtain ⟨⟨res, sv₁⟩, hserve, hout⟩ := Option.map_eq_some_iff.mp hevent
      cases hout
      cases hrepo : (sv.forget P).repo o with
      | error e =>
        rw [getRepostoreFromOverlayId_eq, serve_bind_eq, h.known.serve_resolve_error hrepo]
          at hserve
        cases hserve
        exact h
      | ok r => exact h.serve hopens hplays (forget_repo_eq_ok.mp hrepo) hserve

theorem new (h : BrokerServer.new ∅ .localMode (fun _ => .empty) = some (.ok sv)) :
    sv.Plain P B ∧ sv.forget P = ⟨sv.store, fun _ _ => none⟩ := by
  obtain ⟨-, -, hdisk⟩ := new_mode h
  refine ⟨⟨.new h, fun r => ?_⟩, ?_⟩
  · rw [hdisk]
    exact .empty
  · unfold forget
    rw [hdisk]
    rfl

end Plain

end BrokerServer

open BrokerServer in
/-- In every run, with any requests of any users and any restarts, a local broker gives the replies
of the machine with the records and a map of blocks for each repo, stops if the machine stops, and
has its records and its blocks afterwards. -/
theorem refines_plainBroker {P : Primitives} (hP : P.SerdeLaws) {W : Wire} {B : Set Block}
    (hdistinct : LmdbRepoStore.IdsDistinct P B) (hB : ∀ b ∈ B, b.Valid P) {sv : BrokerServer}
    (hnew : BrokerServer.new ∅ .localMode (fun _ => .empty) = some (.ok sv))
    {events : List BrokerEvent} (hevents : ∀ e ∈ events, e.Opens ∧ e.PutsFrom B) :
    (observe (event P W) nothing sv events).map (Prod.map id (forget P)) =
      observe (PlainBroker.event P W) nothing ⟨sv.store, fun _ _ => none⟩ events := by
  obtain ⟨h, hforget⟩ := Plain.new hnew
  rw [← hforget]
  exact observe_map (I := Plain P B) (fun he h hevent => h.event hP hdistinct hB he hevent)
    (fun he h => h.event_eq hP hdistinct hB he) hevents h

namespace PlainLife

open TwoUsers TwoOverlays OverlayAccess RestartedTwice BrokerServer

def block : Block := Block.new P [] (.objectIdList []) (some 40) [1, 2, 3] none

/-- A request of `alice` to the overlay; a load may take two levels. -/
def request (id : UInt64) (content : BrokerOverlayRequestContent) : BrokerEvent :=
  .request { env with fuel := 2 } alice
    (.v0 (.brokerOverlayMessage ⟨overlay, .brokerOverlayRequest ⟨id, content⟩⟩) [])

/-- A block is put and pinned, and asked for after a restart. -/
def events : List BrokerEvent :=
  life ++ [request 3 (.blockPut block), request 4 (.objectPin (block.id P)), .restart,
    request 5 (.blockGet ⟨block.id P, true, none⟩)]

theorem idsDistinct : LmdbRepoStore.IdsDistinct P {block} := by
  intro b hb b' hb' _
  rw [hb, hb']

theorem block_valid : ∀ b ∈ ({block} : Set Block), b.Valid P := by
  intro b hb
  rw [hb]
  exact Block.new_valid ..

theorem events_ok : ∀ e ∈ events, e.Opens ∧ e.PutsFrom {block} := by
  have hopens : ({ env with fuel := 2 } : Env).Opens := opens_env
  simp [events, life, request, BrokerEvent.Opens, BrokerEvent.PutsFrom, opens_env, hopens,
    BrokerMessage.repoStoreRequest, BrokerOverlayRequestContent.usesRepoStore]

theorem refines_plainBroker_events :
    (observe (event P wire) nothing newBroker events).isSome ∧
    (observe (event P wire) nothing newBroker events).map (Prod.map id (forget P)) =
      observe (PlainBroker.event P wire) nothing ⟨newBroker.store, fun _ _ => none⟩ events :=
  ⟨by decide +kernel, refines_plainBroker Reference.serdeLaws idsDistinct block_valid
    new_newBroker events_ok⟩

end PlainLife

end Lofire
