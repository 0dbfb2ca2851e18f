import Lofire.Broker.RemoteBroker
import Lofire.Lib.Prog
import Lofire.Node.Frames
import Lofire.Signing

/-!
# A client and a node

The client opens a connection to a node (`open_broker_connection` of
`lofire-broker/src/connection.rs`), with the web socket of `lofire-demo/src/main.rs` between the
two, and makes its requests over it. The messages of each direction arrive in the order in which
they were sent; the socket does not fail here.
-/

namespace Lofire

open Lib

/-! ## Opening a connection -/

/-- The calls on the two halves of a stream of frames. -/
inductive FrameCall
  /-- `writer.send(frame)` -/
  | send (frame : Bytes)
  /-- `reader.next()` -/
  | next

/-- Frames are sent and received. -/
abbrev frameCalls : Signature where
  Call := FrameCall
  Reply
    | .send _ => Except ProtocolError Unit
    | .next => Option Bytes

/-- The result of opening a connection; `none` is a panic. -/
abbrev Opening := Prog frameCalls (Option (Except ProtocolError Unit))

namespace Opening

def send (frame : Bytes) : Prog frameCalls (Except ProtocolError Unit) :=
  Prog.perform (S := frameCalls) (FrameCall.send frame)

def next : Prog frameCalls (Option Bytes) := Prog.perform (S := frameCalls) FrameCall.next

def fail (e : ProtocolError) : Opening := return some (.error e)

end Opening

namespace ConnectionRemote

open Opening

variable (W : Wire) (C : Ed25519)

/-- The answer to the client's authentication. -/
def receiveAuthResult : Option Bytes → Opening
  | none => fail .invalidState
  | some answer =>
    match W.authResult.fromSlice answer with
    | none => fail .serializationError
    | some authResult =>
      if authResult.result = 0 then return some (.ok ())
      -- `unwrap` of an unknown code
      else return (ProtocolError.tryFrom authResult.result).map .error

/-- The hello of the server, which the client answers by its authentication. -/
def receiveServerHello (user : PubKey) (userPk : PrivKey) (client : PubKey) :
    Option Bytes → Opening
  | none => fail .invalidState
  | some answer =>
    match W.serverHello.fromSlice answer with
    | none => fail .serializationError
    | some serverHello =>
      let content : ClientAuthContentV0 := ⟨user, client, serverHello.nonce⟩
      match C.signContent userPk user (W.clientAuthContent.toVec content) with
      | .error _ => fail .signatureError
      | .ok sig => do
        match ← send (W.clientAuth.toVec ⟨content, sig⟩) with
        | .error _ => fail .writeError
        | .ok () => receiveAuthResult W (← next)

/-- `open_broker_connection`, up to the connection that it returns -/
def openBrokerConnection (user : PubKey) (userPk : PrivKey) (client : PubKey) : Opening := do
  match ← send (W.startProtocol.toVec .auth) with
  | .error _ => fail .writeError
  | .ok () => receiveServerHello W C user userPk client (← next)

end ConnectionRemote

/-! ## The system -/

structure Session where
  broker : BrokerServer
  node : ConnectionLoop
  /-- the messages on their way to the node -/
  toNode : List Message
  /-- The number of frames of the node that the client has read. -/
  read : Nat
  opening : Opening
  client : BrokerConnectionRemote

/-- The message in which the client sends a frame. -/
def Message.ofFrame (frame : Bytes) : Message := if frame = [] then .close else .binary frame

namespace Session

inductive Action
  /-- the client goes on with opening the connection -/
  | opening
  | request (id : UInt64) (overlay : OverlayId) (content : BrokerOverlayRequestContent)
  /-- the node receives a message -/
  | receive (E : Env)
  /-- the loop of the node goes on -/
  | loop
  /-- the task of the node goes on -/
  | task
  /-- the reader loop of the client reads the next frame -/
  | read
  | call (id : UInt64) (s : CallStep)
  | stream (id : UInt64) (s : StreamStep)

def new (W : Wire) (C : Ed25519) (user : PubKey) (userPk : PrivKey) (client : PubKey)
    (broker : BrokerServer) : Session where
  broker := broker
  node := .new
  toNode := []
  read := 0
  opening := ConnectionRemote.openBrokerConnection W C user userPk client
  client := .open

/-- The client holds the connection. -/
def isOpen (s : Session) : Bool :=
  match s.opening with
  | .ret (some (.ok ())) => true
  | _ => false

/-- The next frame for the client. The message `Close` yields an empty frame. -/
def nextFrame (s : Session) : Option Bytes :=
  match s.node.sent[s.read]? with
  | some n => some n.2
  | none => if s.node.sinkOpen then none else some []

def goOnOpening (s : Session) : Option Session :=
  match s.opening with
  | .ret _ => none
  | .call (.send frame) k =>
    some { s with toNode := s.toNode ++ [.ofFrame frame], opening := k (.ok ()) }
  | .call .next k => do
    let frame ← s.nextFrame
    return { s with read := s.read + 1, opening := k (some frame) }

variable (P : Primitives) (W : Wire)

/-- A request with an id that no actor has. -/
def request (s : Session) (id : UInt64) (overlay : OverlayId)
    (content : BrokerOverlayRequestContent) : Option Session :=
  if s.isOpen ∧ (content.isCall ∨ content.isStream) then do
    let remote ← Remote.request { Remote.new with client := s.client } id content.isStream
    return { s with
      toNode := s.toNode ++
        [.ofFrame (W.brokerMessage.toVec (requestMessage id overlay content))]
      client := remote.client }
  else none

def receive (s : Session) (E : Env) : Option Session :=
  match s.toNode with
  | [] => none
  | msg :: toNode => do
    let (node, broker) ← s.node.receive P W E s.broker msg
    return { s with node, broker, toNode }

def readFrame (s : Session) : Option Session :=
  match s.isOpen, s.client.readerLoop with
  | true, .running => do
    let frame ← s.nextFrame
    return { s with read := s.read + 1, client := s.client.readMessage (decodeFrame W frame) }
  | _, _ => none

def step (s : Session) : Action → Option Session
  | .opening => s.goOnOpening
  | .request id overlay content => s.request W id overlay content
  | .receive E => s.receive P W E
  | .loop => s.node.goOn.map fun node => { s with node }
  | .task => s.node.goOnTask.map fun node => { s with node }
  | .read => s.readFrame W
  | .call id a => do
    let call ← (← s.client.calls id).step a
    return { s with client := s.client.setCall id call }
  | .stream id a => do
    let call ← (← s.client.streamCalls id).step a
    return { s with client := s.client.setStreamCall id call }

def run (s : Session) (as : List Action) : Option Session := Steps.run (step P W) s as

end Session

end Lofire
