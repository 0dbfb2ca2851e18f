import Lofire.Broker.Connection
import Lofire.Broker.Delivery
import Lofire.Broker.Users

/-!
# A remote broker and one in the same process

A request that is sent to a remote broker has the outcome of the same request to a broker in the
same process, in the state in which the remote broker serves it and with the same environment.
-/

namespace Lofire

open Lib

namespace BrokerOverlayRequestContent

/-- The requests with one reply that the broker serves. -/
def isCall : BrokerOverlayRequestContent → Bool
  | overlayConnect | overlayJoin _ | objectPin _ | objectUnpin _ | objectDel _ | blockPut _ => true
  | _ => false

/-- The requests with a stream of blocks as reply. -/
def isStream : BrokerOverlayRequestContent → Bool
  | blockGet _ | branchSyncReq _ => true
  | _ => false

end BrokerOverlayRequestContent

/-! ## The broker's reply -/

section

variable {P : Primitives} {W : Wire} {E : Env}

/-- The handler of a connection whose user has authenticated. -/
def ProtocolHandler.authenticated (user : PubKey) : ProtocolHandler := ⟨.broker, none, some ⟨user⟩⟩

/-- The request in which `BrokerConnectionRemote` sends the content. -/
def requestMessage (id : UInt64) (overlay : OverlayId) (content : BrokerOverlayRequestContent) :
    BrokerMessage :=
  .v0 (.brokerOverlayMessage ⟨overlay, .brokerOverlayRequest ⟨id, content⟩⟩) []

/-- The message of a frame that the client reads (`open_broker_connection`). -/
def decodeFrame (W : Wire) (frame : Bytes) : BrokerMessage :=
  if frame = [] then .close
  else match W.brokerMessage.fromSlice frame with
    | none => .close
    | some m => m

theorem decodeFrame_toVec (hW : W.MessageLaws) (m : BrokerMessage) :
    decodeFrame W (W.brokerMessage.toVec m) = m.onWire := by
  rw [decodeFrame, if_neg (hW.ne_nil m), hW.roundTrips]

/-- The answer of the handler to the outcome of an operation of the broker. -/
def answer {α : Type} (W : Wire) (user : PubKey)
    (reply : Except ProtocolError α → BrokerMessage × Option Later) :
    Option (Except ProtocolError α × BrokerServer) →
      Except Stop (ProtocolHandler.Reply × ProtocolHandler × BrokerServer)
  | some (res, sv) =>
    .ok (⟨.ok (W.brokerMessage.toVec (reply res).1), (reply res).2⟩, .authenticated user, sv)
  | none => .error .broker

/-- A message for which the handler runs `x` on the broker. -/
theorem handleIncoming_serve {α : Type} {user : PubKey} {sv : BrokerServer} {frame : Bytes}
    {m : BrokerMessage} (hm : W.brokerMessage.fromSlice frame = some m) {x : ServerM α}
    {reply : Except ProtocolError α → BrokerMessage × Option Later}
    (h : BrokerProtocolHandler.handleIncoming P W E ⟨user⟩ m =
      HandlerM.serve x >>= fun res => pure (reply res)) :
    ProtocolHandler.handleIncoming P W E (.authenticated user) sv frame =
      answer W user reply (sv.serve x) := by
  unfold ProtocolHandler.handleIncoming ProtocolHandler.authenticated
  dsimp only
  rw [hm]
  dsimp only [ProtocolHandler.unwrap]
  change ((BrokerProtocolHandler.handleIncoming P W E ⟨user⟩ m).run sv >>= _) = _
  rw [h]
  change ((HandlerM.serve x sv >>= fun p => (pure (reply p.1, p.2) : Except Stop _)) >>= _) = _
  unfold HandlerM.serve
  cases sv.serve x <;> rfl

open BrokerProtocolHandler

variable (P E)

/-- The reply to a request with one reply. -/
theorem handleIncoming_call (hW : W.MessageLaws) (user : PubKey) (sv : BrokerServer) (id : UInt64)
    (overlay : OverlayId) {content : BrokerOverlayRequestContent} (h : content.isCall = true) :
    ProtocolHandler.handleIncoming P W E (.authenticated user) sv
        (W.brokerMessage.toVec (requestMessage id overlay content)) =
      answer W user (fun res => (prepareReplyBrokerOverlayMessage res id overlay none 20, none))
        (sv.serve
          (BrokerConnectionLocal.processOverlayRequest P E user overlay content.onWire)) := by
  refine handleIncoming_serve (hW.roundTrips _) ?_
  cases content <;> cases h <;> rfl

/-- The reply to a request for blocks. -/
theorem handleIncoming_stream (hW : W.MessageLaws) (user : PubKey) (sv : BrokerServer) (id : UInt64)
    (overlay : OverlayId) {content : BrokerOverlayRequestContent} (h : content.isStream = true) :
    ProtocolHandler.handleIncoming P W E (.authenticated user) sv
        (W.brokerMessage.toVec (requestMessage id overlay content)) =
      answer W user (fun res => sendBlockStreamResponseToClient W res id overlay 20)
        (sv.serve (BrokerConnectionLocal.processOverlayRequestStreamResponse P
          E overlay content)) := by
  refine handleIncoming_serve (hW.roundTrips _) ?_
  cases content <;> cases h <;> rfl

/-- A reply as the client decodes it: of its blocks, the serialized part. -/
def Reply.received : Reply → Reply
  | .stream overlayId (.ok blocks) => .stream overlayId (.ok (blocks.map Block.onWire))
  | r => r

variable {P E}

theorem decodeFrame_call (hW : W.MessageLaws) (res : Except ProtocolError Unit) (id : UInt64)
    (overlay : OverlayId) :
    [decodeFrame W (W.brokerMessage.toVec (prepareReplyBrokerOverlayMessage
      res id overlay none 20))] =
      (Reply.overlay overlay res).messages id := by
  rw [decodeFrame_toVec hW]
  rfl

/-- The frames of a stream are decoded to its messages. -/
theorem decodeFrame_stream (hW : W.MessageLaws)
    (res : Except ProtocolError (List Block)) (id : UInt64)
    (overlay : OverlayId) :
    (W.brokerMessage.toVec (sendBlockStreamResponseToClient W res id overlay 20).1 ::
        ((sendBlockStreamResponseToClient W res id overlay 20).2.map Later.frames).getD []).map
          (decodeFrame W) = (Reply.stream overlay res).received.messages id := by
  have hframe := decodeFrame_toVec hW
  obtain e | ⟨_ | ⟨one, stream⟩⟩ := res
  · exact (congrArg (· :: []) (hframe _)).trans rfl
  · exact (congrArg (· :: []) (hframe _)).trans rfl
  · simp only [sendBlockStreamResponseToClient, Option.map_some, Option.getD_some, List.map_cons,
      List.map_append, List.map_map, Function.comp_def, hframe, Reply.received, Reply.messages,
      List.map_nil]
    rfl

end

/-! ## The errors of the broker -/

section

variable {E : Env} {α β : Type} {sv : BrokerServer}

/-- No error of the program is taken for a part of a stream. -/
structure PlainErrors (x : ServerM α) : Prop where
  isStream_eq : ∀ {sv : BrokerServer} {e : ProtocolError} {sv' : BrokerServer},
    sv.serve x = some (.error e, sv') → e.isStream = false

namespace PlainErrors

theorem pure (a : α) : PlainErrors (Pure.pure a : ServerM α) := ⟨fun h => by cases h⟩

theorem throw {e : ProtocolError} (he : e.isStream = false) :
    PlainErrors (MonadExcept.throw e : ServerM α) where
  isStream_eq h := by
    cases h
    exact he

theorem bind {x : ServerM α} {f : α → ServerM β} (hx : PlainErrors x)
    (hf : ∀ a, PlainErrors (f a)) :
    PlainErrors (x >>= f) where
  isStream_eq h := by
    obtain ⟨a, sv₁, -, h⟩ | ⟨e, he, h⟩ := BrokerServer.serve_bind h
    · exact (hf a).isStream_eq h
    · cases he
      exact hx.isStream_eq h

theorem records {x : ServerProg α}
    (hx : ∀ {s : LmdbBrokerStore} {e : ProtocolError} {s'},
      runServer x s = (some (.error e), s') → e.isStream = false) :
    PlainErrors (BrokerServer.records x) where
  isStream_eq {sv e sv'} h := by
    rw [BrokerServer.serve_records_eq] at h
    generalize hrun : runServer x sv.store = out at h
    obtain ⟨_ | res, store⟩ := out
    · cases h
    · cases h
      exact hx hrun

theorem onRepoStore {f : StoreM ClockedStore (RepoResult α)} {id : RepoStoreId}
    (hf : ∀ {c : ClockedStore} {e : ProtocolError} {c'},
      f c = .ok (some (.error e)) c' → e.isStream = false) :
    PlainErrors (BrokerServer.onRepoStore E f id) where
  isStream_eq h := by
    obtain ⟨c, hrun, -⟩ := BrokerServer.serve_onRepoStore h
    exact hf hrun

end PlainErrors

/-- The errors of the store are converted. -/
theorem plain_ofStore {x : BrokerProgE α} {s s' : LmdbBrokerStore} {e : ProtocolError}
    (h : runServer (ServerProg.ofStore x) s = (some (.error e), s')) : e.isStream = false := by
  rw [runServer_ofStore] at h
  generalize LmdbBrokerStore.runOn x s = out at h
  obtain ⟨e | a, s₁⟩ := out
  · cases h
    exact ProtocolError.isStream_ofStorageError e
  · cases h

theorem plain_openRepostore (readLocked : Bool) (id : RepoStoreId) :
    PlainErrors (BrokerServer.openRepostore E readLocked id) := by
  refine .bind (.records fun {s e s'} h => ?_) fun key => ?_
  · obtain ⟨res, s₁, hopen⟩ :
      ∃ res s₁, LmdbBrokerStore.runOn (RepoStoreInfo.openId id) s = (res, s₁) :=
      ⟨_, _, rfl⟩
    have hresult : runServer (ServerProg.result (RepoStoreInfo.openId id)) s =
        (some (.ok res), s₁) := by
      rw [runServer_result, hopen]
    rw [runServer_bind_ok hresult] at h
    cases res with
    | error e' =>
      cases h
      rfl
    | ok _ => exact plain_ofStore h
  · split
    · exact .throw rfl
    · split
      · exact ⟨fun h => by cases h⟩
      · exact ⟨fun h => by cases h⟩

theorem plain_resolveRepostore (overlay : OverlayId) :
    PlainErrors (BrokerServer.resolveRepostore E overlay) := by
  refine .bind ⟨fun h => by cases h⟩ fun sv => ?_
  split
  · split
    · exact .pure _
    · exact .bind (plain_openRepostore true _) fun _ => .pure _
  · split
    · split
      · exact .pure _
      · exact .throw rfl
    · exact .bind (.records plain_ofStore) fun _ => .bind ⟨fun h => by cases h⟩ fun _ =>
        .bind (plain_openRepostore false _) fun _ => .pure _

/-- The errors of a request on a repo store are those of its operation, and others that are
plain. -/
theorem plain_getRepostoreFromOverlayId {overlay : OverlayId}
    {f : StoreM ClockedStore (RepoResult α)}
    (hf : ∀ {c : ClockedStore} {e : ProtocolError} {c'}, f c = .ok (some (.error e)) c' →
      e.isStream = false) : PlainErrors (BrokerServer.getRepostoreFromOverlayId E overlay f) := by
  rw [BrokerServer.getRepostoreFromOverlayId_eq]
  exact .bind (plain_resolveRepostore overlay) fun _ => .onRepoStore hf

variable {P : Primitives}

theorem plain_getBlock (overlay : OverlayId) (id : BlockId) (includeChildren : Bool) :
    PlainErrors (BrokerServer.getBlock P E overlay id includeChildren) := by
  refine plain_getRepostoreFromOverlayId fun {c e c'} h => ?_
  split at h
  · obtain ⟨res, c₁, -, h⟩ := StoreM.bind_ok.mp h
    cases res with
    | error e' =>
      cases h
      exact ProtocolError.isStream_ofStorageError e'
    | ok b => cases h
  · obtain ⟨res, c₁, -, h⟩ := StoreM.bind_ok.mp h
    obtain _ | _ | o := res
    · cases h
    · cases h
      rfl
    · cases h

theorem error_sendObjects {ids : List ObjectId} {sent : BrokerServer.Sent} {c c' : ClockedStore}
    {e : ProtocolError} (h : BrokerServer.sendObjects P E ids sent c = .ok (some (.error e)) c') :
    e.isStream = false := by
  induction ids generalizing sent c with
  | nil => cases h
  | cons id ids ih =>
    obtain ⟨res, c₁, -, h⟩ := StoreM.bind_ok.mp h
    obtain _ | e' | o := res
    · cases h
    · cases h
      rfl
    · exact ih h

theorem plain_syncBranch (overlay : OverlayId) (heads knownHeads : List ObjectId)
    (knownCommits : BloomFilter) :
    PlainErrors (BrokerServer.syncBranch P E overlay heads knownHeads knownCommits) := by
  refine plain_getRepostoreFromOverlayId fun {c e c'} h => ?_
  obtain ⟨res, c₁, -, h⟩ := StoreM.bind_ok.mp h
  obtain _ | e' | res := res
  · cases h
  · cases h
    rfl
  · exact error_sendObjects h

/-- An error of a request for blocks is not taken for a part of the stream. -/
theorem plain_processOverlayRequestStreamResponse (overlay : OverlayId)
    (content : BrokerOverlayRequestContent) :
    PlainErrors (BrokerConnectionLocal.processOverlayRequestStreamResponse P
      E overlay content) := by
  unfold BrokerConnectionLocal.processOverlayRequestStreamResponse
  split
  · exact plain_getBlock ..
  · exact plain_syncBranch ..
  · exact .throw rfl

end

/-! ## A block on the way to the broker -/

section

variable {P : Primitives} {E : Env} {sv : BrokerServer}

theorem serve_onRepoStore_put (b : Block) (id : RepoStoreId) :
    sv.serve (BrokerServer.onRepoStore E (do
        let res ← ClockedStore.put P b
        return some ((res.map fun _ => ()).mapError ProtocolError.ofStorageError)) id) =
      some (.ok (), { sv with
        disk := Function.update sv.disk id (LmdbRepoStore.putTxn P b (sv.disk id)) }) :=
  BrokerServer.serve_onRepoStore_run (c := ⟨LmdbRepoStore.putTxn P b (sv.disk id), E.clock⟩) rfl

theorem putTxn_onWire {b : Block} (hb : b.Valid P) (s : LmdbRepoStore) :
    LmdbRepoStore.putTxn P b.onWire s = LmdbRepoStore.putTxn P b s := by
  have hid : b.onWire.id P = b.id P := Block.Valid.id_congr (b := b.onWire) rfl hb rfl
  unfold LmdbRepoStore.putTxn
  rw [hid, Block.toVec_onWire]
  rfl

/-- The cached id of a block has no influence on the result of `putBlock`, and none at all if it is
correct. -/
theorem serve_putBlock_onWire (overlay : OverlayId) (b : Block) :
    (sv.serve (BrokerServer.putBlock P E overlay b.onWire)).map Prod.fst =
        (sv.serve (BrokerServer.putBlock P E overlay b)).map Prod.fst ∧
      (b.Valid P → sv.serve (BrokerServer.putBlock P E overlay b.onWire) =
        sv.serve (BrokerServer.putBlock P E overlay b)) := by
  unfold BrokerServer.putBlock
  rw [BrokerServer.getRepostoreFromOverlayId_eq, BrokerServer.getRepostoreFromOverlayId_eq,
    BrokerServer.serve_bind_eq, BrokerServer.serve_bind_eq]
  obtain _ | ⟨e | id, sv₁⟩ := sv.serve (BrokerServer.resolveRepostore E overlay)
  · exact ⟨rfl, fun _ => rfl⟩
  · exact ⟨rfl, fun _ => rfl⟩
  · dsimp only
    rw [serve_onRepoStore_put, serve_onRepoStore_put]
    exact ⟨rfl, fun hb => by rw [putTxn_onWire hb]⟩

/-- The blocks of the request have their ids. -/
def BrokerOverlayRequestContent.Valid (P : Primitives) : BrokerOverlayRequestContent → Prop
  | .blockPut b => b.Valid P
  | _ => True

variable (P E sv) in
/-- The request that the broker receives has the result of the one that was sent. -/
theorem serve_onWire (user : PubKey) (overlay : OverlayId) (content : BrokerOverlayRequestContent) :
    (sv.serve (BrokerConnectionLocal.processOverlayRequest P E user overlay content.onWire)).map
        Prod.fst =
      (sv.serve (BrokerConnectionLocal.processOverlayRequest P E user overlay content)).map
      Prod.fst ∧
    (content.Valid P →
      sv.serve (BrokerConnectionLocal.processOverlayRequest P E user overlay content.onWire) =
        sv.serve (BrokerConnectionLocal.processOverlayRequest P E user overlay content)) := by
  cases content with
  | blockPut b => exact serve_putBlock_onWire overlay b
  | _ => exact ⟨rfl, fun _ => rfl⟩

end

/-! ## A client and its remote broker -/

/-- A broker with its client: the requests in flight to the broker, each with its id, and the client
with the messages in flight to it. -/
structure RemoteBroker where
  broker : BrokerServer
  requests : List (UInt64 × Bytes)
  remote : Remote
  /-- The requests that were made, a history. -/
  asked : UInt64 → Option (OverlayId × BrokerOverlayRequestContent)
  /-- The broker and the environment with which they were served, a history. -/
  served : UInt64 → Option (BrokerServer × Env)

namespace RemoteBroker

inductive Action
  | request (id : UInt64) (overlay : OverlayId) (content : BrokerOverlayRequestContent)
  /-- the broker serves the next request -/
  | serve (E : Env)
  | internal (a : Remote.Internal)

def new (broker : BrokerServer) : RemoteBroker := ⟨broker, [], .new, fun _ => none, fun _ => none⟩

variable (P : Primitives) (W : Wire) (user : PubKey)

def request (s : RemoteBroker) (id : UInt64) (overlay : OverlayId)
    (content : BrokerOverlayRequestContent) : Option RemoteBroker :=
  if content.isCall ∨ content.isStream then do
    let remote ← s.remote.request id content.isStream
    return { s with
      requests := s.requests ++ [(id, W.brokerMessage.toVec (requestMessage id overlay content))]
      remote := remote
      asked := Function.update s.asked id (some (overlay, content)) }
  else none

def serve (s : RemoteBroker) (E : Env) : Option RemoteBroker :=
  match s.requests with
  | [] => none
  | (id, frame) :: requests =>
    match ProtocolHandler.handleIncoming P W E (.authenticated user) s.broker frame with
    | .ok (⟨.ok reply, later⟩, _, broker) =>
      let frames := reply :: (later.map Later.frames).getD []
      some { s with
        broker := broker
        requests := requests
        remote := s.remote.enqueue id (frames.map (decodeFrame W))
        served := Function.update s.served id (some (s.broker, E)) }
    | _ => none

def step (s : RemoteBroker) : Action → Option RemoteBroker
  | .request id overlay content => s.request W id overlay content
  | .serve E => s.serve P W user E
  | .internal a => (s.remote.internal a).map fun remote => { s with remote }

def run (s : RemoteBroker) (as : List Action) : Option RemoteBroker :=
  Steps.run (step P W user) s as

end RemoteBroker

end Lofire
