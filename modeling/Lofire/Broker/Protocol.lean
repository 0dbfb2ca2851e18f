import Lofire.Broker.RepoAccess

/-!
# The handler of a connection (`lofire-broker/src/server.rs`, `lofire-broker/src/auth.rs`)

`ProtocolHandler` reads the frames of one connection. The first frame chooses a protocol, the client
authenticates, and from then on every frame is a request to the broker, which
`BrokerProtocolHandler` serves under the authenticated user.

A frame that stops the handler has no reply: `Stop` says whether an `unwrap` of a part of the
handler failed, whether another panic was reached, or whether the operation of the broker does not
return.
-/

namespace Lofire

/-- Why the handler of a connection stops. -/
inductive Stop
  /-- an `unwrap` of `auth_protocol`, `nonce`, `get_user()` or `broker_protocol` -/
  | unwrap
  | panic
  /-- an operation of the broker that does not return -/
  | broker
  deriving DecidableEq

/-- The future that comes with a reply: the frames it sends and the code it returns. -/
structure Later where
  frames : List Bytes
  code : UInt16
  deriving DecidableEq

/-! ## Requests to the broker -/

/-- The work of the handler on the broker. -/
abbrev HandlerM := StateT BrokerServer (Except Stop)

/-- Run an operation of the broker. -/
def HandlerM.serve {α : Type} (x : ServerM α) : HandlerM (Except ProtocolError α) := fun sv =>
  match sv.serve x with
  | some res => .ok res
  | none => .error .broker

/-- The code of a result: 0 for success. -/
def resultCode (res : Except ProtocolError Unit) : UInt16 :=
  match res with
  | .ok () => 0
  | .error e => e.toU16

structure BrokerProtocolHandler where
  user : PubKey
  deriving DecidableEq

namespace BrokerProtocolHandler

def prepareReplyBrokerMessage (res : Except ProtocolError Unit) (id : UInt64) (paddingSize : Nat) :
    BrokerMessage :=
  .v0 (.brokerResponse ⟨id, resultCode res⟩) (.replicate paddingSize 0)

def prepareReplyBrokerOverlayMessage (res : Except ProtocolError Unit) (id : UInt64)
    (overlay : OverlayId) (block : Option Block) (paddingSize : Nat) : BrokerMessage :=
  .v0 (.brokerOverlayMessage ⟨overlay, .brokerOverlayResponse
    ⟨id, resultCode res, block.map .block⟩⟩)
    (.replicate paddingSize 0)

def prepareReplyBrokerOverlayMessageStream (res : Except ProtocolError Block) (id : UInt64)
    (overlay : OverlayId) (paddingSize : Nat) : BrokerMessage :=
  let (result, content) := match res with
    | .ok b => (ProtocolError.partialContent.toU16, some (.block b))
    | .error e => (e.toU16, none)
  .v0 (.brokerOverlayMessage ⟨overlay, .brokerOverlayResponse ⟨id, result, content⟩⟩)
    (.replicate paddingSize 0)

section

variable (P : Primitives) (W : Wire) (E : Env)

/-- Return an error or the first block; the remaining blocks and the end of the stream are sent
later. -/
def sendBlockStreamResponseToClient (res : Except ProtocolError (List Block)) (id : UInt64)
    (overlay : OverlayId) (paddingSize : Nat) : BrokerMessage × Option Later :=
  let message := fun next => prepareReplyBrokerOverlayMessageStream next id overlay paddingSize
  match res with
  | .error e => (message (.error e), none)
  | .ok [] => (message (.error .endOfStream), none)
  | .ok (one :: stream) =>
    let frames := stream.map (fun next => W.brokerMessage.toVec (message (.ok next))) ++
      [W.brokerMessage.toVec (message (.error .endOfStream))]
    (message (.ok one), some ⟨frames, 0⟩)

def handleBrokerRequest (user : PubKey) : BrokerRequestContent → ServerM Unit
  | .addUser userId sig => BrokerServer.addUser W user userId sig
  | .delUser userId sig => BrokerServer.delUser user userId sig
  | .addClient clientId sig => BrokerServer.addClient user clientId sig
  | .delClient clientId sig => BrokerServer.delClient user clientId sig

/-- The answer to the content of a request to an overlay. -/
def handleOverlayRequest (user : PubKey) (id : UInt64) (overlay : OverlayId) (paddingSize : Nat)
    (content : BrokerOverlayRequestContent) : HandlerM (BrokerMessage × Option Later) :=
  let reply (x : ServerM Unit) : HandlerM (BrokerMessage × Option Later) := do
    let res ← HandlerM.serve x
    return (prepareReplyBrokerOverlayMessage res id overlay none paddingSize, none)
  let replyStream (x : ServerM (List Block)) : HandlerM (BrokerMessage × Option Later) := do
    let res ← HandlerM.serve x
    return sendBlockStreamResponseToClient W res id overlay paddingSize
  match content with
  | .overlayConnect => reply (BrokerServer.connectOverlay user overlay)
  | .overlayJoin j => reply (BrokerServer.joinOverlay E user overlay j.repoPubkey j.secret j.peers)
  | .objectDel id => reply (BrokerServer.delObject P E overlay id)
  | .objectPin id => reply (BrokerServer.pinObject P E overlay id)
  | .objectUnpin id => reply (BrokerServer.unpinObject P E overlay id)
  | .blockPut b => reply (BrokerServer.putBlock P E overlay b)
  | .branchSyncReq b =>
    replyStream (BrokerServer.syncBranch P E overlay b.heads b.knownHeads b.knownCommits)
  | .blockGet b => replyStream (BrokerServer.getBlock P E overlay b.id b.includeChildren)
  | _ => reply (throw .invalidState)

def handleIncoming (h : BrokerProtocolHandler) (msg : BrokerMessage) :
    HandlerM (BrokerMessage × Option Later) :=
  let paddingSize := 20
  -- `msg.id()` panics on `Close` and on an event
  match msg.id, msg with
  | some id, .v0 (.brokerRequest req) _ => do
    let res ← HandlerM.serve (handleBrokerRequest W h.user req.content)
    return (prepareReplyBrokerMessage res id paddingSize, none)
  | some id, .v0 (.brokerResponse _) _ =>
    return (prepareReplyBrokerMessage (.error .invalidState) id paddingSize, none)
  | some id, .v0 (.brokerOverlayMessage omsg) _ =>
    match omsg.content with
    | .brokerOverlayRequest req =>
      handleOverlayRequest P W E h.user id omsg.overlay paddingSize req.content
    | _ => return (prepareReplyBrokerOverlayMessage (.error .invalidState) id omsg.overlay none
        paddingSize, none)
  | _, _ => throw .panic

end

end BrokerProtocolHandler

/-! ## Authentication -/

/-- The states of `AuthProtocolServer`. -/
inductive AuthProtocolServerState
  | ready
  | clientHelloReceived
  | serverHelloSent
  | clientAuthReceived
  | authResultOk
  | authResultError
  | brokerProtocol
  | closed
  deriving DecidableEq

inductive AuthProtocolServerInput
  | clientHelloReceived
  | serverHelloSent
  | clientAuthReceived
  | ok
  | error
  | authResultSent
  deriving DecidableEq

/-- The transitions of `AuthProtocolServer`. -/
def AuthProtocolServerState.transition :
    AuthProtocolServerState → AuthProtocolServerInput → Option AuthProtocolServerState
  | .ready, .clientHelloReceived => some .clientHelloReceived
  | .clientHelloReceived, .serverHelloSent => some .serverHelloSent
  | .serverHelloSent, .clientAuthReceived => some .clientAuthReceived
  | .clientAuthReceived, .ok => some .authResultOk
  | .clientAuthReceived, .error => some .authResultError
  | .authResultOk, .authResultSent => some .brokerProtocol
  | .authResultError, .authResultSent => some .closed
  | _, _ => none

structure AuthProtocolHandler where
  machine : AuthProtocolServerState
  nonce : Option Bytes
  user : Option PubKey
  deriving DecidableEq

namespace AuthProtocolHandler

/-- The work of the handler on its own state; an error keeps the state reached so far. -/
abbrev AuthM := ExceptT ProtocolError (StateT AuthProtocolHandler (Except Stop))

def new : AuthProtocolHandler := ⟨.ready, none, none⟩

def getUser (a : AuthProtocolHandler) : Option PubKey := a.user

/-- `machine.consume(input)`: without a transition the machine stays where it is. -/
def consume (input : AuthProtocolServerInput) : AuthM Unit := do
  match (← getThe AuthProtocolHandler).machine.transition input with
  | some machine => modify fun a => { a with machine }
  | none => throw .invalidState

def unwrap {α : Type} : Option α → AuthM α
  | some a => pure a
  | none => ExceptT.mk fun _ => .error .unwrap

section

variable (W : Wire) (E : Env)

def handleInit : AuthM Bytes := do
  consume .clientHelloReceived
  let nonce := E.randomBuf.toList
  let reply : ServerHello := ⟨nonce⟩
  modify fun a => { a with nonce := some nonce }
  consume .serverHelloSent
  return W.serverHello.toVec reply

/-- The check of the nonce in a message with a valid signature. -/
def matchNonce (message : ClientAuth) : AuthM Bytes := do
  let nonce ← unwrap (← getThe AuthProtocolHandler).nonce
  if message.nonce ≠ nonce then
    -- the result of `consume` is ignored
    try consume .error catch _ => pure ()
    throw .accessDenied
  else
    -- all is good, we advance the FSM and send back response
    consume .ok
    modify fun a => { a with user := some message.user }
    return []

def processState (frame : Bytes) : AuthM Bytes := do
  match (← getThe AuthProtocolHandler).machine with
  | .serverHelloSent =>
    match W.clientAuth.fromSlice frame with
    | none => throw .serializationError
    | some message =>
      consume .clientAuthReceived
      -- verifying client auth
      match W.verify (W.clientAuthContent.toVec message.content) message.sig message.user with
      | .error _ => throw .accessDenied
      | .ok () => matchNonce message
  | _ => throw .invalidState

def prepareReply (res : Except ProtocolError Bytes) : AuthResult :=
  match res with
  | .ok metadata => ⟨0, metadata⟩
  | .error e => ⟨e.toU16, []⟩

/-- The reply to a frame, the code to close the connection with if it is an error, and the new
state. -/
def handleIncoming (a : AuthProtocolHandler) (frame : Bytes) :
    Except Stop ((Except ProtocolError Bytes × Option UInt16) × AuthProtocolHandler) := do
  let (res, a') ← (processState W frame).run.run a
  let reply := prepareReply res
  let replySer := W.authResult.toVec reply
  match res with
  | .error _ => return ((.ok replySer, some reply.result), a')
  | .ok _ => return ((.ok replySer, none), a')

end

end AuthProtocolHandler

/-! ## The protocols of a connection -/

inductive ProtocolType
  | start
  | auth
  | broker
  | ext
  | p2p
  deriving DecidableEq

/-- `ext_protocol` is never read. -/
structure ProtocolHandler where
  protocol : ProtocolType
  authProtocol : Option AuthProtocolHandler
  brokerProtocol : Option BrokerProtocolHandler
  deriving DecidableEq

namespace ProtocolHandler

/-- `BrokerServer::protocol_handler` -/
def new : ProtocolHandler := ⟨.start, none, none⟩

/-- The reply to a frame, and what is sent after it. -/
structure Reply where
  frame : Except ProtocolError Bytes
  later : Option Later

def unwrap {α : Type} : Option α → Except Stop α
  | some a => .ok a
  | none => .error .unwrap

/-- Handle incoming message -/
def handleIncoming (P : Primitives) (W : Wire) (E : Env) (h : ProtocolHandler) (sv : BrokerServer)
    (frame : Bytes) : Except Stop (Reply × ProtocolHandler × BrokerServer) :=
  match h.protocol with
  | .start =>
    match W.startProtocol.fromSlice frame with
    | some .auth => do
      let (res, a) ← (AuthProtocolHandler.handleInit W E).run.run .new
      return (⟨res, none⟩, { h with protocol := .auth, authProtocol := some a }, sv)
    -- `unimplemented!()`
    | some .ext => .error .panic
    | none => .ok (⟨.error .serializationError, none⟩, h, sv)
  | .auth => do
    let auth ← unwrap h.authProtocol
    let ((res, code), auth) ← auth.handleIncoming W frame
    match code with
    | none =>
      -- we switch to Broker protocol
      let user ← unwrap auth.getUser
      return (⟨res, none⟩, ⟨.broker, none, some ⟨user⟩⟩, sv)
    | some e => return (⟨res, some ⟨[], e⟩⟩, { h with authProtocol := some auth }, sv)
  | .broker =>
    match W.brokerMessage.fromSlice frame with
    | some message => do
      let broker ← unwrap h.brokerProtocol
      let ((reply, later), sv) ← (broker.handleIncoming P W E message).run sv
      return (⟨.ok (W.brokerMessage.toVec reply), later⟩, h, sv)
    | none => .ok (⟨.error .serializationError, none⟩, h, sv)
  -- the connection is closed
  | .ext => .ok (⟨.error .invalidState, none⟩, h, sv)
  -- `unimplemented!()`
  | .p2p => .error .panic

end ProtocolHandler

end Lofire
