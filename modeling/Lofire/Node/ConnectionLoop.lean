import Lofire.Broker.Auth
import Lofire.Lib.Outbox
import Lofire.Lib.Steps

/-!
# The node's side of a connection (`lofire-node/src/main.rs`)

`connection_loop` hands the binary messages of a web socket to the handler of the connection, one
after the other, and sends its replies. What comes after a reply goes through a channel to a task of
its own, which writes to the same socket. The two interleave in any order; each of them leaves, and
closes the socket, when it can not send.

The frames that are sent carry the number of the frame that they answer, which is part of the
history only.
-/

namespace Lofire

open Lib

/-- A message of a web socket. -/
inductive Message
  | binary (data : Bytes)
  | close
  /-- text, ping and pong -/
  | other
  deriving DecidableEq

/-- A frame with the number of the frame that it answers. -/
abbrev Numbered := Nat × Bytes

/-- Where the loop of `connection_loop` is. -/
inductive LoopState
  /-- waits for a message -/
  | receiving
  /-- is about to send a reply -/
  | replying (frame : Bytes) (later : Option Later)
  /-- awaits the future that comes with a reply, which has these frames to send -/
  | awaiting (frames : List Bytes) (code : UInt16)
  /-- has left the loop -/
  | leaving
  | ended
  deriving DecidableEq

/-- The loop after a reply was sent. -/
def LoopState.after : Option Later → LoopState
  | none => .receiving
  | some later => .awaiting later.frames later.code

/-- Where the task of the asynchronous frames is. -/
inductive FramesTask
  | receiving
  | sending (frame : Numbered)
  | leaving
  | ended
  deriving DecidableEq

structure ConnectionLoop where
  handler : ProtocolHandler
  loop : LoopState
  /-- the channel of the asynchronous frames -/
  channel : List Numbered
  task : FramesTask
  /-- The socket takes messages. -/
  sinkOpen : Bool
  sent : List Numbered
  /-- The frames of the reply to each frame that was handled, a history. -/
  answers : List (List Bytes)
  deriving DecidableEq

namespace ConnectionLoop

def new : ConnectionLoop := ⟨.new, .receiving, [], .receiving, true, [], []⟩

/-- The number of the last frame that was handled. -/
def number (c : ConnectionLoop) : Nat := c.answers.length - 1

/-- A frame is handled. There is no next state if the handler stops. -/
def handle (P : Primitives) (W : Wire) (E : Env) (c : ConnectionLoop) (sv : BrokerServer)
    (data : Bytes) : Option (ConnectionLoop × BrokerServer) :=
  match c.handler.handleIncoming P W E sv data with
  | .ok (⟨.error _, _⟩, handler, sv) =>
    -- dealing with ProtocolErrors (closing the connection)
    some ({ c with handler, loop := .leaving, answers := c.answers ++ [[]] }, sv)
  | .ok (⟨.ok r, later⟩, handler, sv) =>
    some ({ c with
      handler, loop := .replying r later
      answers := c.answers ++ [r :: (later.map Later.frames).getD []] }, sv)
  | .error _ => none

/-- `rx.next()` yields a message. -/
def receive (P : Primitives) (W : Wire) (E : Env) (c : ConnectionLoop) (sv : BrokerServer)
    (msg : Message) : Option (ConnectionLoop × BrokerServer) :=
  match c.loop with
  | .receiving =>
    match msg with
    | .binary data => c.handle P W E sv data
    | .close => some ({ c with loop := .leaving }, sv)
    | .other => some (c, sv)
  | _ => none

/-- `rx.next()` yields an error, or nothing. -/
def hangUp (c : ConnectionLoop) : Option ConnectionLoop :=
  match c.loop with
  | .receiving => some { c with loop := .leaving }
  | _ => none

/-- The loop goes on after it has received a message. -/
def goOn (c : ConnectionLoop) : Option ConnectionLoop :=
  match c.loop with
  | .receiving => none
  | .replying frame later =>
    if c.sinkOpen then some { c with
      sent := c.sent ++ [(c.number, frame)], loop := .after later }
    -- dealing with sending errors (closing the connection)
    else some { c with loop := .leaving }
  | .awaiting (frame :: frames) code =>
    -- the receiver of the channel is dropped with the task
    if c.task = .ended then some { c with loop := .awaiting [] code }
    else some { c with
      channel := c.channel ++ [(c.number, frame)], loop := .awaiting frames code }
  | .awaiting [] code =>
    if code > 0 then some { c with loop := .leaving } else some { c with loop := .receiving }
  -- `Close` is sent and the socket is closed
  | .leaving => some { c with loop := .ended, sinkOpen := false }
  | .ended => none

/-- The task of the asynchronous frames goes on. -/
def goOnTask (c : ConnectionLoop) : Option ConnectionLoop :=
  match c.task with
  | .receiving =>
    match c.channel with
    | frame :: channel => some { c with channel, task := .sending frame }
    -- the senders are dropped with the handler
    | [] => if c.loop = .ended then some { c with task := .leaving } else none
  | .sending frame =>
    if c.sinkOpen then some { c with sent := c.sent ++ [frame], task := .receiving }
    else some { c with task := .leaving }
  | .leaving => some { c with task := .ended, sinkOpen := false }
  | .ended => none

inductive Action
  /-- a message of the client, with what the outside world answers and the state of the broker when
  it arrives -/
  | receive (msg : Message) (env : Env) (broker : BrokerServer)
  | hangUp
  | loop
  | task
  /-- the connection fails, and the socket takes no message any more -/
  | fail

/-- Between two frames the broker may change in any way. -/
def step (P : Primitives) (W : Wire) (c : ConnectionLoop) : Action → Option ConnectionLoop
  | .receive msg env broker => (c.receive P W env broker msg).map Prod.fst
  | .hangUp => c.hangUp
  | .loop => c.goOn
  | .task => c.goOnTask
  | .fail => some { c with sinkOpen := false }

def run (P : Primitives) (W : Wire) (c : ConnectionLoop) (as : List Action) :
    Option ConnectionLoop := Steps.run (step P W) c as

/-- The frame that is handled in a step. -/
def Action.incoming : Action → Option Incoming
  | receive (.binary data) env broker => some ⟨data, env, broker⟩
  | _ => none

/-! ## What a step does -/

section

variable {P : Primitives} {W : Wire} {E : Env} {c c' : ConnectionLoop} {sv sv' : BrokerServer}

/-- The handler replies to the frame, or reports an error with which the loop is left. -/
theorem handle_eq_some {data : Bytes} (h : c.handle P W E sv data = some (c', sv')) :
    ∃ reply handler, c.handler.handleIncoming P W E sv data = .ok (reply, handler, sv') ∧
      ((∃ e, reply.frame = .error e ∧
        c' = { c with handler, loop := .leaving, answers := c.answers ++ [[]] }) ∨
      ∃ r, reply.frame = .ok r ∧ c' = { c with
        handler, loop := .replying r reply.later
        answers := c.answers ++ [r :: (reply.later.map Later.frames).getD []] }) := by
  unfold handle at h
  split at h
  · rename_i e later handler sv₁ hrun
    cases h
    exact ⟨_, _, hrun, .inl ⟨e, rfl, rfl⟩⟩
  · rename_i r later handler sv₁ hrun
    cases h
    exact ⟨_, _, hrun, .inr ⟨r, rfl, rfl⟩⟩
  · cases h

theorem receive_eq_some {msg : Message} (h : c.receive P W E sv msg = some (c', sv')) :
    c.loop = .receiving ∧
      ((∃ data, msg = .binary data ∧ c.handle P W E sv data = some (c', sv')) ∨
      (msg = .close ∧ c' = { c with loop := .leaving } ∧ sv' = sv) ∨
      (msg = .other ∧ c' = c ∧ sv' = sv)) := by
  unfold receive at h
  split at h
  · rename_i hloop
    refine ⟨hloop, ?_⟩
    cases msg with
    | binary data => exact .inl ⟨data, rfl, h⟩
    | close =>
      cases h
      exact .inr (.inl ⟨rfl, rfl, rfl⟩)
    | other =>
      cases h
      exact .inr (.inr ⟨rfl, rfl, rfl⟩)
  · cases h

theorem hangUp_eq_some (h : c.hangUp = some c') :
    c.loop = .receiving ∧ c' = { c with loop := .leaving } := by
  unfold hangUp at h
  split at h
  · rename_i hloop
    cases h
    exact ⟨hloop, rfl⟩
  · cases h

/-- What the loop does next. -/
inductive GoesOn (c : ConnectionLoop) : ConnectionLoop → Prop
  | reply {frame : Bytes} {later : Option Later} (hloop : c.loop = .replying frame later)
      (hopen : c.sinkOpen = true) : GoesOn c { c with
        sent := c.sent ++ [(c.number, frame)], loop := .after later }
  | failed {frame : Bytes} {later : Option Later} (hloop : c.loop = .replying frame later)
      (hclosed : c.sinkOpen = false) : GoesOn c { c with loop := .leaving }
  | enqueue {frame : Bytes} {frames : List Bytes} {code : UInt16}
      (hloop : c.loop = .awaiting (frame :: frames) code) (htask : c.task ≠ .ended) :
      GoesOn c { c with
        channel := c.channel ++ [(c.number, frame)], loop := .awaiting frames code }
  | dropped {frame : Bytes} {frames : List Bytes} {code : UInt16}
      (hloop : c.loop = .awaiting (frame :: frames) code) (htask : c.task = .ended) :
      GoesOn c { c with loop := .awaiting [] code }
  | next {code : UInt16} (hloop : c.loop = .awaiting [] code) (hcode : code = 0) :
      GoesOn c { c with loop := .receiving }
  | errorCode {code : UInt16} (hloop : c.loop = .awaiting [] code) (hcode : 0 < code) :
      GoesOn c { c with loop := .leaving }
  | close (hloop : c.loop = .leaving) : GoesOn c { c with loop := .ended, sinkOpen := false }

theorem goesOn (h : c.goOn = some c') : GoesOn c c' := by
  unfold goOn at h
  split at h
  · cases h
  · rename_i frame later hloop
    split at h
    · rename_i hopen
      cases h
      exact .reply hloop hopen
    · rename_i hclosed
      cases h
      exact .failed hloop (by simpa using hclosed)
  · rename_i frame frames code hloop
    split at h
    · rename_i htask
      cases h
      exact .dropped hloop htask
    · rename_i htask
      cases h
      exact .enqueue hloop htask
  · rename_i code hloop
    split at h
    · rename_i hcode
      cases h
      exact .errorCode hloop hcode
    · rename_i hcode
      cases h
      exact .next hloop (UInt16.le_zero_iff.mp (UInt16.not_lt.mp hcode))
  · rename_i hloop
    cases h
    exact .close hloop
  · cases h

/-- What the task does next. -/
inductive TaskGoesOn (c : ConnectionLoop) : ConnectionLoop → Prop
  | take {frame : Numbered} {channel : List Numbered} (htask : c.task = .receiving)
      (hchannel : c.channel = frame :: channel) :
      TaskGoesOn c { c with channel, task := .sending frame }
  | drained (htask : c.task = .receiving) (hchannel : c.channel = []) (hloop : c.loop = .ended) :
      TaskGoesOn c { c with task := .leaving }
  | send {frame : Numbered} (htask : c.task = .sending frame) (hopen : c.sinkOpen = true) :
      TaskGoesOn c { c with sent := c.sent ++ [frame], task := .receiving }
  | failed {frame : Numbered} (htask : c.task = .sending frame) (hclosed : c.sinkOpen = false) :
      TaskGoesOn c { c with task := .leaving }
  | close (htask : c.task = .leaving) : TaskGoesOn c { c with task := .ended, sinkOpen := false }

theorem taskGoesOn (h : c.goOnTask = some c') : TaskGoesOn c c' := by
  unfold goOnTask at h
  split at h
  · rename_i htask
    split at h
    · rename_i frame channel hchannel
      cases h
      exact .take htask hchannel
    · rename_i hchannel
      obtain ⟨hloop, h⟩ := Option.ite_none_right_eq_some.mp h
      cases h
      exact .drained htask hchannel hloop
  · rename_i frame htask
    split at h
    · rename_i hopen
      cases h
      exact .send htask hopen
    · rename_i hclosed
      cases h
      exact .failed htask (by simpa using hclosed)
  · rename_i htask
    cases h
    exact .close htask
  · cases h

end

end ConnectionLoop

end Lofire
