import Lofire.Broker.Protocol
import Lofire.Lib.Actors
import Lofire.Lib.Steps
import Lofire.Net.Results

/-!
# Remote connection to a broker (`lofire-broker/src/connection.rs`)

The client of a remote broker: `BrokerConnectionRemote` starts an actor for every request and puts
its weak address in one of two maps under the id of the request. The reader loop sends every reply
to the actor of its id. The caller waits for its actor, and a task of its own removes the entry of a
stream.

An actor's id is the id of its request, and no two actors have the same id. Once the reader loop has
ended with an error the writer is closed, and no request is sent. `close` is not modelled here.
-/

namespace Lofire

open Lib

/-! ## The actors -/

/-- The actor of a request with one reply: what it has sent through its oneshot channel. -/
structure BrokerMessageActor where
  sent : Option BrokerMessage
  deriving DecidableEq

namespace BrokerMessageActor

def new : BrokerMessageActor := ⟨none⟩

/-- A oneshot channel takes one value. -/
def resolve (a : BrokerMessageActor) (msg : BrokerMessage) : BrokerMessageActor :=
  ⟨a.sent.or (some msg)⟩

def handle (a : BrokerMessageActor) (msg : BrokerMessage) : Option (BrokerMessageActor × Bool) :=
  some (a.resolve msg, true)

end BrokerMessageActor

/-- The actor of a request with a stream of replies: its channel of blocks, which the caller
receives from, and what it has sent through its oneshot channel. -/
structure BrokerMessageStreamActor where
  blocks : List Block
  closed : Bool
  error : Option (Option ProtocolError)
  deriving DecidableEq

namespace BrokerMessageStreamActor

def new : BrokerMessageStreamActor := ⟨[], false, none⟩

/-- `partial`: a closed channel takes no block. -/
def sendPartial (a : BrokerMessageStreamActor) (block : Block) : Option BrokerMessageStreamActor :=
  if a.closed then none else some { a with blocks := a.blocks ++ [block] }

def sendError (a : BrokerMessageStreamActor) (err : Option ProtocolError) :
    BrokerMessageStreamActor :=
  { a with error := a.error.or (some err) }

def close (a : BrokerMessageStreamActor) : BrokerMessageStreamActor := { a with closed := true }

def handle (a : BrokerMessageStreamActor) (msg : BrokerMessage) :
    Option (BrokerMessageStreamActor × Bool) :=
  match msg.toBlock with
  | none => none
  | some (.error e) => some ((a.sendError (some e)).close, true)
  | some (.ok (some b)) =>
    -- it must be a partial content
    match (a.sendError none).sendPartial b with
    | some a => some (a, false)
    | none => some ((a.sendError none).close, true)
  | some (.ok none) => some ((a.sendError none).close, true)

/-- The receiver of the blocks is dropped. -/
def dropReceiver (a : BrokerMessageStreamActor) : BrokerMessageStreamActor :=
  { a with blocks := [], closed := true }

end BrokerMessageStreamActor

/-! ## A request with one reply -/

inductive CallState
  | waiting
  | returned (res : Except ProtocolError Unit)
  | panicked
  deriving DecidableEq

/-- The call of `process_overlay_request` or `add_user`, with its actor. -/
structure Call where
  actor : Actor BrokerMessage BrokerMessageActor
  /-- The map `actors` has the entry of the request. -/
  entry : Bool
  /-- The call holds the strong address of the actor. -/
  addr : Bool
  state : CallState
  deriving DecidableEq

inductive CallStep
  /-- the actor handles the next event -/
  | handle
  /-- `addr.wait_for_stop()` returns -/
  | stopped
  /-- `receiver.await` returns -/
  | reply
  deriving DecidableEq

namespace Call

/-- `before!` -/
def new : Call := ⟨.start .new, true, true, .waiting⟩

/-- `after!` and the conversion of the reply -/
def step (c : Call) : CallStep → Option Call
  | .handle => (c.actor.next BrokerMessageActor.handle).map fun actor => { c with actor }
  | .stopped => if c.addr ∧ !c.actor.running then some { c with addr := false } else none
  | .reply =>
    if c.state = .waiting ∧ !c.addr then
      match c.actor.state.sent with
      | none => some { c with state := .returned (.error .closing) }
      | some reply => some { c with
          entry := false
          state := match reply.toResult with
            | some res => .returned res
            | none => .panicked }
    else none

end Call

/-! ## A request with a stream of replies -/

inductive StreamState
  | waiting
  | failed (e : ProtocolError)
  | opened
  deriving DecidableEq

/-- The call of `process_overlay_request_stream_response`, with its actor, its task and the stream
that it has returned. -/
structure StreamCall where
  actor : Actor BrokerMessage BrokerMessageStreamActor
  /-- The map `stream_actors` has the entry of the request. -/
  entry : Bool
  /-- The call or its task holds the strong address of the actor. -/
  addr : Bool
  state : StreamState
  /-- The caller holds the stream. -/
  held : Bool
  /-- The blocks that the caller has received. -/
  received : List Block
  /-- The caller has seen the end of the stream. -/
  ended : Bool
  deriving DecidableEq

inductive StreamStep
  /-- the actor handles the next event -/
  | handle
  /-- `error_receiver.await` returns -/
  | error
  /-- `addr.wait_for_stop()` returns in the task -/
  | stopped
  /-- the task removes the entry -/
  | remove
  /-- the caller receives from the stream -/
  | recv
  /-- the caller drops the stream -/
  | drop
  deriving DecidableEq

namespace StreamCall

def new : StreamCall := ⟨.start .new, true, true, .waiting, true, [], false⟩

def step (c : StreamCall) : StreamStep → Option StreamCall
  | .handle => (c.actor.next BrokerMessageStreamActor.handle).map fun actor => { c with actor }
  | .error =>
    if c.state = .waiting then
      match c.actor.state.error with
      | some (some e) => some { c with entry := false, addr := false, state := .failed e }
      | some none => some { c with state := .opened }
      -- the sender is dropped with the actor
      | none =>
        if c.actor.running then none else some { c with addr := false, state := .failed .closing }
    else none
  | .stopped =>
    if c.state = .opened ∧ c.addr ∧ !c.actor.running then some { c with addr := false } else none
  | .remove =>
    if c.state = .opened ∧ !c.addr ∧ c.entry then some { c with entry := false } else none
  | .recv =>
    if c.state = .opened ∧ c.held ∧ !c.ended then
      match c.actor.state.blocks with
      | block :: blocks => some { c with
          actor := { c.actor with state := { c.actor.state with blocks } }
          received := c.received ++ [block] }
      | [] =>
        if c.actor.state.closed ∨ !c.actor.running then some { c with ended := true } else none
    else none
  | .drop =>
    if c.state = .opened ∧ c.held then some { c with
      actor := { c.actor with state := c.actor.state.dropReceiver }, held := false }
    else none

end StreamCall

/-! ## The reader loop -/

inductive ReaderLoop
  | running
  | ended (res : Except ProtocolError Unit)
  deriving DecidableEq

structure BrokerConnectionRemote where
  calls : UInt64 → Option Call
  streamCalls : UInt64 → Option StreamCall
  readerLoop : ReaderLoop

namespace BrokerConnectionRemote

/-- `open` -/
def «open» : BrokerConnectionRemote := ⟨fun _ => none, fun _ => none, .running⟩

/-- The map `actors`; an entry is the weak address of the actor of the call. -/
def actors (c : BrokerConnectionRemote) (id : UInt64) : Option Call :=
  (c.calls id).filter Call.entry

/-- The map `stream_actors`. -/
def streamActors (c : BrokerConnectionRemote) (id : UInt64) : Option StreamCall :=
  (c.streamCalls id).filter StreamCall.entry

def setCall (c : BrokerConnectionRemote) (id : UInt64) (call : Call) : BrokerConnectionRemote :=
  { c with calls := Function.update c.calls id (some call) }

def setStreamCall (c : BrokerConnectionRemote) (id : UInt64) (call : StreamCall) :
    BrokerConnectionRemote :=
  { c with streamCalls := Function.update c.streamCalls id (some call) }

/-- The reader loop returns `Err(Closing)`. -/
def closing (c : BrokerConnectionRemote) : BrokerConnectionRemote :=
  { c with readerLoop := .ended (.error .closing) }

/-- Stop the actors of the two maps whose addresses are not dead. -/
def stopActors (c : BrokerConnectionRemote) : BrokerConnectionRemote := { c with
  calls := fun id => (c.calls id).map fun call =>
    if call.entry ∧ call.addr then { call with actor := call.actor.stop } else call
  streamCalls := fun id => (c.streamCalls id).map fun call =>
    if call.entry ∧ call.addr then { call with actor := call.actor.stop } else call }

/-- The body of `connection_reader_loop` for a message. -/
def readMessage (c : BrokerConnectionRemote) (message : BrokerMessage) : BrokerConnectionRemote :=
  if message.isClose then
    -- releasing the blocking calls on the actors
    c.stopActors.closing
  else if message.isRequest = some true then
    -- a client is not supposed to receive requests
    c.closing
  else
    match message.isResponse, message.id with
    | some true, some id =>
      match c.actors id with
      | some call =>
        match if call.addr then call.actor.send message else none with
        | some actor => c.setCall id { call with actor }
        | none => c.closing
      | none =>
        match c.streamActors id with
        | some call =>
          match if call.addr then call.actor.send message else none with
          | some actor => c.setStreamCall id { call with actor }
          | none => c.closing
        | none => c.closing
    -- an event
    | _, _ => c

end BrokerConnectionRemote

/-! ## The client and the frames in flight -/

/-- The reply to a request. -/
inductive Reply
  /-- to a request to the broker -/
  | broker (res : Except ProtocolError Unit)
  /-- to a request to an overlay -/
  | overlay (overlayId : OverlayId) (res : Except ProtocolError Unit)
  /-- to a request to an overlay for blocks -/
  | stream (overlayId : OverlayId) (res : Except ProtocolError (List Block))
  deriving DecidableEq

namespace Reply

open BrokerProtocolHandler

def isStream : Reply → Bool
  | stream .. => true
  | _ => false

/-- The messages in which `BrokerProtocolHandler` sends the reply. -/
def messages (id : UInt64) : Reply → List BrokerMessage
  | .broker res => [prepareReplyBrokerMessage res id 20]
  | .overlay overlayId res => [prepareReplyBrokerOverlayMessage res id overlayId none 20]
  | .stream overlayId (.error e) =>
    [prepareReplyBrokerOverlayMessageStream (.error e) id overlayId 20]
  | .stream overlayId (.ok blocks) =>
    blocks.map (fun b => prepareReplyBrokerOverlayMessageStream (.ok b) id overlayId 20) ++
      [prepareReplyBrokerOverlayMessageStream (.error .endOfStream) id overlayId 20]

end Reply

/-- The client with the messages in flight to it. The messages of one request arrive in the order in
which they were sent, those of different requests in any order. -/
structure Remote where
  client : BrokerConnectionRemote
  /-- The replies of the broker, a history. -/
  replies : UInt64 → Option (List BrokerMessage)
  incoming : UInt64 → List BrokerMessage

namespace Remote

/-- What the client does by itself. -/
inductive Internal
  /-- the reader loop reads the next message of a request -/
  | read (id : UInt64)
  | call (id : UInt64) (s : CallStep)
  | stream (id : UInt64) (s : StreamStep)
  deriving DecidableEq

inductive Action
  /-- a request is sent, with an actor for one reply or for a stream -/
  | request (id : UInt64) (stream : Bool)
  | reply (id : UInt64) (r : Reply)
  | internal (a : Internal)
  deriving DecidableEq

/-- The request that an action concerns. -/
def Action.id : Action → UInt64
  | request id _ => id
  | reply id _ => id
  | internal (.read id) => id
  | internal (.call id _) => id
  | internal (.stream id _) => id

def new : Remote := ⟨.open, fun _ => none, fun _ => []⟩

/-- No actor has the id. -/
def isFresh (s : Remote) (id : UInt64) : Bool :=
  (s.client.calls id).isNone && (s.client.streamCalls id).isNone

def request (s : Remote) (id : UInt64) (stream : Bool) : Option Remote :=
  if s.client.readerLoop = .running ∧ s.isFresh id then
    some { s with
      client := if stream then s.client.setStreamCall id .new else s.client.setCall id .new }
  else none

/-- The reply to a request is on its way. -/
def enqueue (s : Remote) (id : UInt64) (messages : List BrokerMessage) : Remote := { s with
  replies := Function.update s.replies id (some messages)
  incoming := Function.update s.incoming id messages }

/-- The broker replies once to a request. -/
def reply (s : Remote) (id : UInt64) (r : Reply) : Option Remote :=
  if (s.replies id).isNone ∧
      (if r.isStream then (s.client.streamCalls id).isSome else (s.client.calls id).isSome) then
    some (s.enqueue id (r.messages id))
  else none

def internal (s : Remote) : Internal → Option Remote
  | .read id =>
    match s.client.readerLoop, s.incoming id with
    | .running, message :: messages => some { s with
        client := s.client.readMessage message
        incoming := Function.update s.incoming id messages }
    | _, _ => none
  | .call id a => do
    let call ← (← s.client.calls id).step a
    return { s with client := s.client.setCall id call }
  | .stream id a => do
    let call ← (← s.client.streamCalls id).step a
    return { s with client := s.client.setStreamCall id call }

def step (s : Remote) : Action → Option Remote
  | .request id stream => s.request id stream
  | .reply id r => s.reply id r
  | .internal a => s.internal a

def run (s : Remote) (as : List Action) : Option Remote := Steps.run step s as

end Remote

end Lofire
