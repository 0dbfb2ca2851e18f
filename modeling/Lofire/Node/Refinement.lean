import Lofire.Broker.SameOutcome
import Lofire.Lib.Simulation
import Lofire.Node.Handshake

/-!
# A session is a remote broker

Once the client holds its connection, the node behaves to it as the remote broker that serves one
request after the other and whose messages arrive in the order of each request: the loop and the
task of the node, the channel between them and the two directions of the socket can not be told from
it (`refines_remoteBroker`). So every caller sees the outcome of the local call.
-/

namespace Lofire

open Lib Lib.Outbox

variable {P : Primitives} {W : Wire} {user : PubKey}

/-- The request that a frame answers, as the client decodes it. -/
def Numbered.id (W : Wire) (n : Numbered) : Option UInt64 := (decodeFrame W n.2).id

/-- The reply to a request that a client sends, and the frames that come later, without an error. -/
theorem reply_of_request (hW : W.MessageLaws) {E : Env} {id : UInt64} {overlay : OverlayId}
    {content : BrokerOverlayRequestContent}
    (hkind : content.isCall = true ∨ content.isStream = true) {sv sv' : BrokerServer}
    {reply : ProtocolHandler.Reply} {h : ProtocolHandler}
    (hhandle : ProtocolHandler.handleIncoming P W E (.authenticated user) sv
      (W.brokerMessage.toVec (requestMessage id overlay content)) = .ok (reply, h, sv')) :
    ∃ r, reply.frame = .ok r ∧ ∀ later, reply.later = some later → later.code = 0 := by
  obtain hcall | hstream := hkind
  · rw [handleIncoming_call P E hW user sv id overlay hcall] at hhandle
    cases hserve : sv.serve (BrokerConnectionLocal.processOverlayRequest P E user overlay
        content.onWire) with
    | none =>
      rw [hserve] at hhandle
      cases hhandle
    | some out =>
      rw [hserve] at hhandle
      cases hhandle
      exact ⟨_, rfl, fun later hlater => by cases hlater⟩
  · rw [handleIncoming_stream P E hW user sv id overlay hstream] at hhandle
    cases hserve : sv.serve (BrokerConnectionLocal.processOverlayRequestStreamResponse P E overlay
        content) with
    | none =>
      rw [hserve] at hhandle
      cases hhandle
    | some out =>
      rw [hserve] at hhandle
      cases hhandle
      refine ⟨_, rfl, fun later hlater => ?_⟩
      obtain ⟨e | ⟨_ | ⟨one, blocks⟩⟩, sv₁⟩ := out
      · cases hlater
      · cases hlater
      · cases hlater
        rfl

/-- A request that was not answered has no message in flight. -/
theorem Remote.Inv.incoming_eq_nil {abandons : Prop} {s : Remote} (h : Remote.Inv abandons s)
    {id : UInt64} (hnone : s.replies id = none) : s.incoming id = [] := by
  have hat := h.at_id id
  rw [hnone] at hat
  generalize s.client.calls id = call, s.client.streamCalls id = stream, s.incoming id = incoming
    at hat
  cases hat with
  | fresh => rfl
  | call hcall =>
    cases hcall
    rfl
  | stream hstream =>
    cases hstream
    rfl
  | abandoned ha habandoned => cases habandoned.replied

namespace Session

/-! ## The relation -/

/-- The loop serves requests. -/
inductive Serving : LoopState → Prop
  | receiving : Serving .receiving
  | replying {frame : Bytes} {later : Option Later} (h : ∀ l, later = some l → l.code = 0) :
      Serving (.replying frame later)
  | awaiting {frames : List Bytes} : Serving (.awaiting frames 0)

/-- The frames that the client has not read, sent or not. -/
def unread (s : Session) : List Numbered := s.node.outbox.unread s.read

structure Refines (W : Wire) (user : PubKey) (s : Session) (r : RemoteBroker) : Prop where
  opening : s.opening = .ret (some (.ok ()))
  handler : s.node.handler = .authenticated user
  sinkOpen : s.node.sinkOpen = true
  task : s.node.task ≠ .leaving ∧ s.node.task ≠ .ended
  loop : Serving s.node.loop
  read : s.read ≤ s.node.sent.length
  separate : Separate (Numbered.id W) s.node.outbox
  answers : ∀ n ∈ s.unread, ∃ id, Numbered.id W n = some id
  broker : r.broker = s.broker
  client : r.remote.client = s.client
  requests : s.toNode = r.requests.map fun q => .binary q.2
  incoming : ∀ id, r.remote.incoming id =
    (withKey (Numbered.id W) (some id) s.unread).map fun n => decodeFrame W n.2

theorem refines_opened (n : Bytes) (b : BrokerServer) :
    Refines W user (opened W n user b) (.new b) where
  opening := rfl
  handler := rfl
  sinkOpen := rfl
  task := ⟨nofun, nofun⟩
  loop := .receiving
  read := Nat.le_refl 2
  separate a h := by cases h
  answers n h := by cases h
  broker := rfl
  client := rfl
  requests := rfl
  incoming _ := rfl

variable {s s' : Session} {r r' : RemoteBroker}

/-! ## The steps of the node -/

/-- A step of the loop or of the task that the client can not see. -/
theorem Refines.of_outbox (h : Refines W user s r) {node : ConnectionLoop}
    (hhandler : node.handler = s.node.handler) (hopen : node.sinkOpen = true)
    (htask : node.task ≠ .leaving ∧ node.task ≠ .ended) (hloop : Serving node.loop)
    (houtbox : Step s.node.outbox node.outbox ∨ node.outbox = s.node.outbox) :
    Refines W user { s with node } r := by
  have hread : s.read ≤ s.node.outbox.out.length := h.read
  have hkeep : s.read ≤ node.outbox.out.length ∧ Separate (Numbered.id W) node.outbox ∧
      (∀ n ∈ node.outbox.unread s.read, n ∈ s.unread) ∧
      ∀ k, withKey (Numbered.id W) k (node.outbox.unread s.read) =
        withKey (Numbered.id W) k s.unread := by
    obtain hstep | hsame := houtbox
    · obtain ⟨as, hout⟩ := hstep.exists_out_eq
      refine ⟨?_, h.separate.step hstep, fun n hn => hstep.mem_unread hread hn,
        withKey_unread_step h.separate hstep hread⟩
      rw [hout, List.length_append]
      omega
    · rw [hsame]
      exact ⟨hread, h.separate, fun n hn => hn, fun k => rfl⟩
  obtain ⟨hread', hseparate, hmem, hkey⟩ := hkeep
  exact {
    h with
    handler := hhandler.trans h.handler
    sinkOpen := hopen
    task := htask
    loop := hloop
    read := hread'
    separate := hseparate
    answers := fun n hn => h.answers n (hmem n hn)
    incoming := fun id => (h.incoming id).trans (congrArg _ (hkey (some id)).symm) }

theorem Refines.loop_step (h : Refines W user s r) {node : ConnectionLoop}
    (hs : s.node.goOn = some node) : Refines W user { s with node } r := by
  have hgoes := ConnectionLoop.goesOn hs
  have hserving := h.loop
  have hkeep : node.handler = s.node.handler ∧ node.sinkOpen = true ∧ node.task = s.node.task ∧
      Serving node.loop := by
    cases hgoes with
    | @reply frame later hloop _ =>
      refine ⟨rfl, h.sinkOpen, rfl, ?_⟩
      rw [hloop] at hserving
      cases hserving with
      | replying hcode =>
        cases later with
        | none => exact .receiving
        | some l =>
          show Serving (.awaiting l.frames l.code)
          rw [hcode l rfl]
          exact .awaiting
    | failed _ hclosed =>
      rw [h.sinkOpen] at hclosed
      cases hclosed
    | @enqueue frame frames code hloop _ =>
      refine ⟨rfl, h.sinkOpen, rfl, ?_⟩
      rw [hloop] at hserving
      cases hserving
      exact .awaiting
    | dropped _ hended => exact absurd hended h.task.2
    | next => exact ⟨rfl, h.sinkOpen, rfl, .receiving⟩
    | errorCode hloop hcode =>
      rw [hloop] at hserving
      cases hserving
      exact absurd hcode (by decide)
    | close hloop =>
      rw [hloop] at hserving
      cases hserving
  obtain ⟨hhandler, hopen, htask, hloop⟩ := hkeep
  exact h.of_outbox hhandler hopen (by rw [htask]; exact h.task) hloop
    (hgoes.outbox hopen h.task.2)

theorem Refines.loop_ne_ended (h : Refines W user s r) : s.node.loop ≠ .ended := by
  intro hended
  have hserving := h.loop
  rw [hended] at hserving
  cases hserving

theorem Refines.task_step (h : Refines W user s r) {node : ConnectionLoop}
    (hs : s.node.goOnTask = some node) : Refines W user { s with node } r := by
  have hgoes := ConnectionLoop.taskGoesOn hs
  have hnot := h.loop_ne_ended
  have hkeep : node.handler = s.node.handler ∧ node.sinkOpen = true ∧
      (node.task ≠ .leaving ∧ node.task ≠ .ended) ∧ node.loop = s.node.loop := by
    cases hgoes with
    | take | send =>
      exact ⟨rfl, h.sinkOpen, ⟨nofun, nofun⟩, rfl⟩
    | drained _ _ hended => exact absurd hended hnot
    | failed _ hclosed =>
      rw [h.sinkOpen] at hclosed
      cases hclosed
    | close hleaving => exact absurd hleaving h.task.1
  obtain ⟨hhandler, hopen, htask, hloop⟩ := hkeep
  exact h.of_outbox hhandler hopen htask (by rw [hloop]; exact h.loop)
    (.inl (hgoes.outbox hopen hnot))

/-- The loop accepts the reply to a request that has no frames on their way. -/
theorem Refines.reply (h : Refines W user s r) (hloop : s.node.loop = .receiving)
    {broker : BrokerServer} {toNode : List Message} {requests : List (UInt64 × Bytes)} {id : UInt64}
    (htoNode : toNode = requests.map fun q => .binary q.2) (hnone : r.remote.incoming id = [])
    {reply : Bytes} {later : Option Later}
    (hcode : ∀ l, later = some l → l.code = 0)
    (hid : ∀ f ∈ reply :: (later.map Later.frames).getD [], (decodeFrame W f).id = some id)
    (served : UInt64 → Option (BrokerServer × Env)) (frames : List Bytes) :
    Refines W user
      { s with
        broker := broker
        node := { s.node with
          handler := .authenticated user
          loop := .replying reply later, answers := s.node.answers ++ [frames] }
        toNode := toNode }
      { r with
        broker := broker
        requests := requests
        remote := r.remote.enqueue id
          ((reply :: (later.map Later.frames).getD []).map (decodeFrame W))
        served := served } := by
  let n := s.node.answers.length
  let batch : List Numbered := (reply :: (later.map Later.frames).getD []).map (n, ·)
  let node : ConnectionLoop := { s.node with
    handler := .authenticated user
    loop := .replying reply later, answers := s.node.answers ++ [frames] }
  have houtbox : node.outbox = s.node.outbox.accept (n, reply)
      (((later.map Later.frames).getD []).map (n, ·)) :=
    ConnectionLoop.outbox_reply s.node (.authenticated user) reply later frames
  have hunread : node.outbox.unread s.read = s.unread ++ batch := by
    rw [houtbox, unread_accept (ConnectionLoop.outbox_idle hloop)]
    rfl
  have hbatch : ∀ m ∈ batch, Numbered.id W m = some id := by
    intro m hm
    obtain ⟨f, hf, rfl⟩ := List.mem_map.mp hm
    exact hid f hf
  -- no frame to come has the id
  have hno : withKey (Numbered.id W) (some id) s.unread = [] := by
    have hincoming := h.incoming id
    rw [hnone] at hincoming
    exact List.map_eq_nil_iff.mp hincoming.symm
  exact {
    opening := h.opening
    handler := rfl
    sinkOpen := h.sinkOpen
    task := h.task
    loop := .replying hcode
    read := h.read
    separate := by
      show Separate (Numbered.id W) node.outbox
      rw [houtbox]
      refine .accept (fun m hm heq => ?_) _
      have hmem : m ∈ withKey (Numbered.id W) (some id) s.unread := by
        refine List.mem_filter.mpr ⟨?_, decide_eq_true (heq.trans ?_)⟩
        · exact List.mem_append_right _ (List.mem_append_left _ hm)
        · exact hbatch (n, reply) List.mem_cons_self
      rw [hno] at hmem
      cases hmem
    answers := by
      intro m hm
      rcases List.mem_append.mp (show m ∈ s.unread ++ batch from hunread ▸ hm) with hm | hm
      · exact h.answers m hm
      · exact ⟨id, hbatch m hm⟩
    broker := rfl
    client := h.client
    requests := htoNode
    incoming := by
      intro id'
      show Function.update r.remote.incoming id _ id' =
        (withKey (Numbered.id W) (some id') (node.outbox.unread s.read)).map _
      rw [hunread, withKey_append, List.map_append]
      by_cases heq : id' = id
      · subst heq
        rw [Function.update_self, hno, withKey_eq_self hbatch]
        simp [batch]
      · have hother : withKey (Numbered.id W) (some id') batch = [] := by
          refine withKey_eq_nil fun m hm heq' => ?_
          exact heq (Option.some.inj (heq'.symm.trans (hbatch m hm)))
        rw [Function.update_of_ne heq, h.incoming id', hother]
        simp }

/-- The node takes the next request: the broker serves it. -/
theorem Refines.receive_step (hW : W.MessageLaws) (h : Refines W user s r)
    (hinv : RemoteBroker.Inv P W user r) {E : Env} (hs : s.receive P W E = some s') :
    ∃ r', r.serve P W user E = some r' ∧ Refines W user s' r' := by
  unfold Session.receive at hs
  split at hs
  · cases hs
  · rename_i msg toNode htoNode
    obtain ⟨⟨node, broker⟩, hnode, hs⟩ := Option.bind_eq_some_iff.mp hs
    cases hs
    -- the message is the next request
    rw [h.requests] at htoNode
    obtain ⟨⟨id, frame⟩, requests, hrequests, rfl, rfl⟩ := List.map_eq_cons_iff.mp htoNode
    obtain ⟨hunserved, overlay, content, hasked, rfl⟩ := hinv.requests (by
      rw [hrequests]
      exact List.mem_cons_self ..)
    have hkind := (hinv.asked hasked).imp And.left And.left
    obtain ⟨hloop, ⟨data, hdata, hhandle⟩ | ⟨hclose, -⟩ | ⟨hother, -⟩⟩ :=
      ConnectionLoop.receive_eq_some hnode
    · cases hdata
      obtain ⟨reply, handler, hincoming, hnode⟩ := ConnectionLoop.handle_eq_some hhandle
      rw [h.handler] at hincoming
      obtain ⟨r₁, hr₁, hcode⟩ := reply_of_request hW hkind hincoming
      obtain ⟨frame, later⟩ := reply
      cases hr₁
      obtain ⟨e, he, -⟩ | ⟨r₂, hr₂, rfl⟩ := hnode
      · cases he
      cases hr₂
      have hserve : r.serve P W user E = some { r with
          broker := broker
          requests := requests
          remote := r.remote.enqueue id
            ((r₁ :: (later.map Later.frames).getD []).map (decodeFrame W))
          served := Function.update r.served id (some (r.broker, E)) } := by
        unfold RemoteBroker.serve
        rw [hrequests]
        dsimp only
        rw [h.broker, hincoming]
      refine ⟨_, hserve, ?_⟩
      obtain rfl : handler = .authenticated user :=
        ProtocolHandler.handleIncoming_authenticated hincoming
      obtain ⟨reply, -, hmessages, -⟩ :=
        RemoteBroker.answered_of_handleIncoming hW hkind hincoming
      have hid : ∀ f ∈ r₁ :: (later.map Later.frames).getD [], (decodeFrame W f).id = some id := by
        intro f hf
        have hmem := List.mem_map_of_mem (f := decodeFrame W) hf
        rw [hmessages] at hmem
        exact (Reply.respondsTo hmem).id_eq
      exact h.reply hloop rfl (hinv.remote.incoming_eq_nil (hinv.unserved hunserved)) hcode hid _ _
    · cases hclose
    · cases hother

/-! ## The steps of the client -/

theorem Refines.isOpen (h : Refines W user s r) : s.isOpen = true := by
  unfold Session.isOpen
  rw [h.opening]

/-- The reader loop reads the next frame: the next message of the request that it answers. -/
theorem Refines.read_step (h : Refines W user s r) (hs : s.readFrame W = some s') :
    ∃ id remote, r.remote.internal (.read id) = some remote ∧
      Refines W user s' { r with remote } := by
  unfold readFrame at hs
  rw [h.isOpen] at hs
  cases hloop : s.client.readerLoop with
  | ended =>
    rw [hloop] at hs
    cases hs
  | running =>
  rw [hloop] at hs
  obtain ⟨frame, hframe, hs⟩ := Option.bind_eq_some_iff.mp hs
  cases hs
  unfold nextFrame at hframe
  rw [h.sinkOpen] at hframe
  cases hnext : s.node.sent[s.read]? with
  | none =>
    rw [hnext] at hframe
    cases hframe
  | some n =>
  rw [hnext] at hframe
  cases hframe
  obtain ⟨hlt, hget⟩ := List.getElem?_eq_some_iff.mp hnext
  have hunread : s.unread = n :: s.node.outbox.unread (s.read + 1) := by
    show s.node.sent.drop s.read ++ _ = _
    rw [List.drop_eq_getElem_cons hlt, hget]
    rfl
  obtain ⟨id, hid⟩ := h.answers n (by rw [hunread]; exact List.mem_cons_self)
  have hincoming := h.incoming id
  rw [hunread, withKey_cons, if_pos hid, List.map_cons] at hincoming
  refine ⟨id, { r.remote with
    client := r.remote.client.readMessage (decodeFrame W n.2)
    incoming := Function.update r.remote.incoming id
      ((withKey (Numbered.id W) (some id) (s.node.outbox.unread (s.read + 1))).map
        fun n => decodeFrame W n.2) }, ?_, ?_⟩
  · unfold Remote.internal
    dsimp only
    rw [h.client, hloop, hincoming]
  · exact {
      h with
      read := hlt
      answers := fun m hm => h.answers m (by rw [hunread]; exact List.mem_cons_of_mem _ hm)
      client := congrArg (BrokerConnectionRemote.readMessage · _) h.client
      incoming := by
        intro id'
        show Function.update r.remote.incoming id _ id' =
          (withKey (Numbered.id W) (some id') (s.node.outbox.unread (s.read + 1))).map _
        by_cases heq : id' = id
        · subst heq
          rw [Function.update_self]
        · rw [Function.update_of_ne heq, h.incoming id', hunread, withKey_cons, if_neg]
          exact fun hid' => heq (Option.some.inj (hid'.symm.trans hid)) }

/-- A request is made. -/
theorem Refines.request_step (hW : W.MessageLaws) (h : Refines W user s r) {id : UInt64}
    {overlay : OverlayId} {content : BrokerOverlayRequestContent}
    (hs : s.request W id overlay content = some s') :
    ∃ r', r.request W id overlay content = some r' ∧ Refines W user s' r' := by
  obtain ⟨⟨-, hkind⟩, hs⟩ := Option.ite_none_right_eq_some.mp hs
  obtain ⟨remote, hremote, hs⟩ := Option.bind_eq_some_iff.mp hs
  cases hs
  obtain ⟨hcalls, hstreams, rfl⟩ := Remote.request_eq_some hremote
  obtain ⟨hready, -⟩ := Option.ite_none_right_eq_some.mp hremote
  have hrequest : r.remote.request id content.isStream = some { r.remote with
      client := if content.isStream then s.client.setStreamCall id .new
        else s.client.setCall id .new } := by
    have hfresh : r.remote.isFresh id = true := by
      unfold Remote.isFresh
      rw [h.client]
      exact hready.2
    unfold Remote.request
    rw [h.client, if_pos ⟨hready.1, hfresh⟩]
  refine ⟨_, (if_pos hkind).trans (by rw [hrequest]; rfl), ?_⟩
  exact {
    h with
    client := rfl
    requests := by
      show s.toNode ++ _ = _
      rw [h.requests, List.map_append, Message.ofFrame_of_ne (hW.ne_nil _)]
      rfl }

/-- A caller or its actor goes on. -/
theorem Refines.internal_step (h : Refines W user s r) {a : Remote.Internal}
    {client : BrokerConnectionRemote} (hs : r.remote.internal a = some { r.remote with client }) :
    ∃ r', r.step P W user (.internal a) = some r' ∧ Refines W user { s with client } r' :=
  ⟨_, Option.map_eq_some_iff.mpr ⟨_, hs, rfl⟩, { h with client := rfl }⟩

/-! ## The simulation -/

/-- Callers drop their streams only after their ends. -/
def keeps (s : Session) : Action → Bool
  | .stream id .drop => (s.client.streamCalls id).all StreamCall.ended
  | _ => true

/-- What is seen of a step: the requests and what the callers and their actors do. -/
def Action.seen : Action → Option RemoteBroker.Action
  | .request id overlay content => some (.request id overlay content)
  | .call id a => some (.internal (.call id a))
  | .stream id a => some (.internal (.stream id a))
  | _ => none

end Session

def RemoteBroker.Action.seen : RemoteBroker.Action → Option RemoteBroker.Action
  | .serve _ => none
  | .internal (.read _) => none
  | a => some a

namespace Session

/-- A step of a session that is open is a step of the remote broker, or none. -/
theorem Refines.step (hW : W.MessageLaws) (h : Refines W user s r)
    (hinv : RemoteBroker.Inv P W user r) {a : Action} (hkeeps : s.keeps a = true)
    (hs : s.step P W a = some s') :
    a.seen = none ∧ Refines W user s' r ∨ ∃ b r', r.keeps b = true ∧
      RemoteBroker.Action.seen b = a.seen ∧ r.step P W user b = some r' ∧ Refines W user s' r' := by
  cases a with
  | opening =>
    change s.goOnOpening = some s' at hs
    unfold goOnOpening at hs
    rw [h.opening] at hs
    cases hs
  | request id overlay content =>
    obtain ⟨r', hr', h'⟩ := h.request_step hW hs
    exact .inr ⟨.request id overlay content, r', rfl, rfl, hr', h'⟩
  | receive E =>
    obtain ⟨r', hr', h'⟩ := h.receive_step hW hinv hs
    exact .inr ⟨.serve E, r', rfl, rfl, hr', h'⟩
  | loop =>
    obtain ⟨node, hnode, rfl⟩ := Option.map_eq_some_iff.mp hs
    exact .inl ⟨rfl, h.loop_step hnode⟩
  | task =>
    obtain ⟨node, hnode, rfl⟩ := Option.map_eq_some_iff.mp hs
    exact .inl ⟨rfl, h.task_step hnode⟩
  | read =>
    obtain ⟨id, remote, hremote, h'⟩ := h.read_step hs
    exact .inr ⟨.internal (.read id), _, rfl, rfl,
      Option.map_eq_some_iff.mpr ⟨remote, hremote, rfl⟩, h'⟩
  | call id a =>
    obtain ⟨call, hcall, hs⟩ := Option.bind_eq_some_iff.mp hs
    obtain ⟨call', hstep, hs⟩ := Option.bind_eq_some_iff.mp hs
    cases hs
    have hinternal : r.remote.internal (.call id a) =
        some { r.remote with client := s.client.setCall id call' } := by
      simp only [Remote.internal, h.client, hcall, Option.bind_eq_bind, Option.bind_some, hstep]
      rfl
    obtain ⟨r', hr', h'⟩ := h.internal_step (P := P) hinternal
    exact .inr ⟨.internal (.call id a), r', rfl, rfl, hr', h'⟩
  | stream id a =>
    obtain ⟨call, hcall, hs⟩ := Option.bind_eq_some_iff.mp hs
    obtain ⟨call', hstep, hs⟩ := Option.bind_eq_some_iff.mp hs
    cases hs
    have hinternal : r.remote.internal (.stream id a) =
        some { r.remote with client := s.client.setStreamCall id call' } := by
      simp only [Remote.internal, h.client, hcall, Option.bind_eq_bind, Option.bind_some, hstep]
      rfl
    obtain ⟨r', hr', h'⟩ := h.internal_step (P := P) hinternal
    refine .inr ⟨.internal (.stream id a), r', ?_, rfl, hr', h'⟩
    cases a with
    | drop =>
      show (r.remote.client.streamCalls id).all StreamCall.ended = true
      rw [h.client]
      exact hkeeps
    | _ => rfl

variable {C : Ed25519} {userPk : PrivKey} {client : PubKey} {b : BrokerServer}

/-- Until the client holds its connection, the remote broker stays in its first state. -/
inductive Simulated (P : Primitives) (W : Wire) (C : Ed25519) (user : PubKey) (userPk : PrivKey)
    (client : PubKey) (b : BrokerServer) : Session → RemoteBroker → Prop
  | connecting {s : Session} (h : Connecting W C user userPk client b s) :
      Simulated P W C user userPk client b s (.new b)
  | open {s : Session} {r : RemoteBroker} (h : Refines W user s r)
      (hinv : RemoteBroker.Inv P W user r) : Simulated P W C user userPk client b s r

theorem simulates (hW : W.MessageLaws) (hH : W.HandshakeLaws) :
    Steps.Simulates (step P W) (RemoteBroker.step P W user) (fun s a => s.keeps a = true)
      (fun r b => r.keeps b = true) Action.seen RemoteBroker.Action.seen
      (Simulated P W C user userPk client b) := by
  intro s a s' r h hkeeps hs
  cases h with
  | connecting h =>
    have hseen : a.seen = none := by
      obtain rfl | ⟨E, rfl⟩ | rfl | rfl := h.action hs <;> rfl
    refine .inl ⟨hseen, ?_⟩
    obtain ⟨-, h' | ⟨n, sig, -, -, rfl⟩⟩ := h.step hH hs
    · exact .connecting h'
    · exact .open (refines_opened n b) (RemoteBroker.inv_new b)
  | «open» h hinv =>
    obtain ⟨hseen, h'⟩ | ⟨b, r', hb, hseen, hr', h'⟩ := h.step hW hinv hkeeps hs
    · exact .inl ⟨hseen, .open h' hinv⟩
    · exact .inr ⟨b, r', hb, hseen, hr', .open h' (hinv.step hW hb hr')⟩

end Session

end Lofire
