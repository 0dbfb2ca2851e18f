import Lofire.Node.Attempt
import Lofire.Node.Session

/-!
# The client and the node agree

The client signs the nonce of the node's hello, and the node checks the signature. However the two
interleave, the client holds the connection only if the node serves it as this user, and it gets an
error only if the node does not (`handshake_agrees`); with a pair of keys there is no error, and the
opening can always be brought to its end.
-/

namespace Lofire

open Lib

/-- `serde_bare` decodes what it encoded of the messages of a start, and encodes those of the client
with their tags. -/
structure Wire.HandshakeLaws (W : Wire) : Prop where
  startProtocol : W.startProtocol.RoundTrips .auth
  startProtocol_ne_nil : W.startProtocol.toVec .auth ≠ []
  serverHello : ∀ m, W.serverHello.RoundTrips m
  clientAuth : ∀ m, W.clientAuth.RoundTrips m
  clientAuth_ne_nil : ∀ m, W.clientAuth.toVec m ≠ []
  authResult : ∀ m, W.authResult.RoundTrips m

theorem Message.ofFrame_of_ne {frame : Bytes} (h : frame ≠ []) : ofFrame frame = .binary frame :=
  if_neg h

section

variable {P : Primitives} {W : Wire} {C : Ed25519} {user : PubKey} {userPk : PrivKey}
  {client : PubKey}

/-! ## The replies of the node -/

/-- The handler that waits for the authentication. -/
def ProtocolHandler.waiting (n : Bytes) : ProtocolHandler :=
  ⟨.auth, some ⟨.serverHelloSent, some n, none⟩, none⟩

/-- The handler that has rejected it. -/
def ProtocolHandler.rejected (n : Bytes) : ProtocolHandler :=
  ⟨.auth, some ⟨.clientAuthReceived, some n, none⟩, none⟩

namespace ProtocolHandler

theorem handleIncoming_start (hW : W.HandshakeLaws) (E : Env) (sv : BrokerServer) :
    new.handleIncoming P W E sv (W.startProtocol.toVec .auth) =
      .ok (⟨.ok (W.serverHello.toVec ⟨E.randomBuf.toList⟩), none⟩, waiting E.randomBuf.toList,
        sv) := by
  have hstart := hW.startProtocol
  unfold Serde.RoundTrips at hstart
  simp only [handleIncoming, new, hstart, AuthProtocolHandler.handleInit_eq]
  rfl

/-- The authentication of a client for the nonce of the hello is accepted. -/
theorem handleIncoming_accepted (hW : W.HandshakeLaws) (n : Bytes) {m : ClientAuth} (E : Env)
    (sv : BrokerServer) (hnonce : m.nonce = n)
    (hverify : W.verify (W.clientAuthContent.toVec m.content) m.sig m.user = .ok ()) :
    (waiting n).handleIncoming P W E sv (W.clientAuth.toVec m) =
      .ok (⟨.ok (W.authResult.toVec ⟨0, []⟩), none⟩, authenticated m.user, sv) := by
  have hauth := hW.clientAuth m
  unfold Serde.RoundTrips at hauth
  have hstate := AuthProtocolHandler.processState_waiting (W := W) n (W.clientAuth.toVec m)
  rw [hauth] at hstate
  dsimp only at hstate
  rw [hverify] at hstate
  dsimp only at hstate
  rw [AuthProtocolHandler.matchNonce_eq, if_pos hnonce] at hstate
  simp only [handleIncoming, waiting, unwrap, AuthProtocolHandler.handleIncoming, hstate, bind,
    Except.bind, pure, Except.pure, AuthProtocolHandler.prepareReply, AuthProtocolHandler.getUser]
  rfl

/-- It is rejected. -/
theorem handleIncoming_rejected (hW : W.HandshakeLaws) (n : Bytes) {m : ClientAuth} (E : Env)
    (sv : BrokerServer)
    (hverify : W.verify (W.clientAuthContent.toVec m.content) m.sig m.user ≠ .ok ()) :
    (waiting n).handleIncoming P W E sv (W.clientAuth.toVec m) =
      .ok (⟨.ok (W.authResult.toVec ⟨ProtocolError.accessDenied.toU16, []⟩),
        some ⟨[], ProtocolError.accessDenied.toU16⟩⟩, rejected n, sv) := by
  have hauth := hW.clientAuth m
  unfold Serde.RoundTrips at hauth
  have hstate := AuthProtocolHandler.processState_waiting (W := W) n (W.clientAuth.toVec m)
  rw [hauth] at hstate
  dsimp only at hstate
  cases hres : W.verify (W.clientAuthContent.toVec m.content) m.sig m.user with
  | ok _ => exact absurd hres hverify
  | error e =>
    rw [hres] at hstate
    simp only [handleIncoming, waiting, unwrap, AuthProtocolHandler.handleIncoming, hstate, bind,
      Except.bind, pure, Except.pure, AuthProtocolHandler.prepareReply]
    rfl

end ProtocolHandler

/-- The loop is about to send the reply of the handler. -/
theorem ConnectionLoop.receive_reply {c : ConnectionLoop} {E : Env} {sv sv' : BrokerServer}
    {data r : Bytes} {later : Option Later} {handler : ProtocolHandler}
    (hloop : c.loop = .receiving)
    (hrun : c.handler.handleIncoming P W E sv data = .ok (⟨.ok r, later⟩, handler, sv')) :
    c.receive P W E sv (.binary data) = some ({ c with
      handler, loop := .replying r later
      answers := c.answers ++ [r :: (later.map Later.frames).getD []] }, sv') := by
  unfold receive
  rw [hloop]
  dsimp only
  unfold handle
  rw [hrun]

/-! ## The states of the opening -/

namespace Session

open ConnectionRemote

/-- The node after its hello. -/
def helloNode (W : Wire) (n : Bytes) (loop : LoopState) (sent : List Numbered) : ConnectionLoop :=
  ⟨.waiting n, loop, [], .receiving, true, sent, [[W.serverHello.toVec ⟨n⟩]]⟩

/-- The node that has accepted the client. -/
def userNode (W : Wire) (n : Bytes) (user : PubKey) (loop : LoopState) (sent : List Numbered) :
    ConnectionLoop :=
  ⟨.authenticated user, loop, [], .receiving, true, sent,
    [[W.serverHello.toVec ⟨n⟩], [W.authResult.toVec ⟨0, []⟩]]⟩

/-- The result that rejects the client. -/
def denied (W : Wire) : Bytes := W.authResult.toVec ⟨ProtocolError.accessDenied.toU16, []⟩

/-- The node that has rejected it. -/
def deniedNode (W : Wire) (n : Bytes) (loop : LoopState) (task : FramesTask) (sinkOpen : Bool)
    (sent : List Numbered) : ConnectionLoop :=
  ⟨.rejected n, loop, [], task, sinkOpen, sent, [[W.serverHello.toVec ⟨n⟩], [denied W]]⟩

/-- The signature of the client for the nonce of the hello. -/
def Signs (W : Wire) (C : Ed25519) (user : PubKey) (userPk : PrivKey) (client : PubKey) (n : Bytes)
    (sig : Sig) : Prop :=
  C.signContent userPk user (W.clientAuthContent.toVec ⟨user, client, n⟩) = .ok sig

/-- The node takes the signature for the user's. -/
def Accepts (W : Wire) (user client : PubKey) (n : Bytes) (sig : Sig) : Prop :=
  W.verify (W.clientAuthContent.toVec ⟨user, client, n⟩) sig user = .ok ()

/-- The client goes on after it has sent its authentication. -/
def sentAuth (W : Wire) : Except ProtocolError Unit → Opening
  | .error _ => Opening.fail .writeError
  | .ok () => .call FrameCall.next (receiveAuthResult W)

section

variable {b : BrokerServer} {E : Env} {n : Bytes} {sent : List Numbered} {sig : Sig}

theorem receive_start (hW : W.HandshakeLaws) :
    ConnectionLoop.new.receive P W E b (.binary (W.startProtocol.toVec .auth)) =
      some (helloNode W E.randomBuf.toList
        (.replying (W.serverHello.toVec ⟨E.randomBuf.toList⟩) none) [], b) :=
  ConnectionLoop.receive_reply rfl (ProtocolHandler.handleIncoming_start hW E b)

theorem receive_accepted (hW : W.HandshakeLaws) (hverify : Accepts W user client n sig) :
    (helloNode W n .receiving sent).receive P W E b
        (.binary (W.clientAuth.toVec ⟨⟨user, client, n⟩, sig⟩)) =
      some (userNode W n user (.replying (W.authResult.toVec ⟨0, []⟩) none) sent, b) :=
  ConnectionLoop.receive_reply (c := helloNode W n .receiving sent) rfl
    (ProtocolHandler.handleIncoming_accepted (m := ⟨⟨user, client, n⟩, sig⟩) hW n E b rfl hverify)

theorem receive_rejected (hW : W.HandshakeLaws) (hverify : ¬ Accepts W user client n sig) :
    (helloNode W n .receiving sent).receive P W E b
        (.binary (W.clientAuth.toVec ⟨⟨user, client, n⟩, sig⟩)) =
      some (deniedNode W n (.replying (denied W) (some ⟨[], ProtocolError.accessDenied.toU16⟩))
        .receiving true sent, b) :=
  ConnectionLoop.receive_reply (c := helloNode W n .receiving sent) rfl
    (ProtocolHandler.handleIncoming_rejected (m := ⟨⟨user, client, n⟩, sig⟩) hW n E b hverify)

end

/-- A session whose client does not hold a connection. -/
inductive Connecting (W : Wire) (C : Ed25519) (user : PubKey) (userPk : PrivKey)
    (client : PubKey) (b : BrokerServer) : Session → Prop
  | start : Connecting W C user userPk client b (new W C user userPk client b)
  | started : Connecting W C user userPk client b ⟨b, .new,
      [.binary (W.startProtocol.toVec .auth)], 0,
      .call FrameCall.next (receiveServerHello W C user userPk client), .open⟩
  | replying (n : Bytes) : Connecting W C user userPk client b ⟨b,
      helloNode W n (.replying (W.serverHello.toVec ⟨n⟩) none) [], [], 0,
      .call FrameCall.next (receiveServerHello W C user userPk client), .open⟩
  | hello (n : Bytes) : Connecting W C user userPk client b ⟨b,
      helloNode W n .receiving [(0, W.serverHello.toVec ⟨n⟩)], [], 0,
      .call FrameCall.next (receiveServerHello W C user userPk client), .open⟩
  | unsigned (n : Bytes) (h : ∀ sig, ¬ Signs W C user userPk client n sig) :
      Connecting W C user userPk client b ⟨b,
      helloNode W n .receiving [(0, W.serverHello.toVec ⟨n⟩)], [], 1,
      .ret (some (.error .signatureError)), .open⟩
  | signed {n : Bytes} {sig : Sig} (h : Signs W C user userPk client n sig) :
      Connecting W C user userPk client b ⟨b,
      helloNode W n .receiving [(0, W.serverHello.toVec ⟨n⟩)], [], 1,
      .call (FrameCall.send (W.clientAuth.toVec ⟨⟨user, client, n⟩, sig⟩)) (sentAuth W), .open⟩
  | auth {n : Bytes} {sig : Sig} (h : Signs W C user userPk client n sig) :
      Connecting W C user userPk client b ⟨b,
      helloNode W n .receiving [(0, W.serverHello.toVec ⟨n⟩)],
      [.binary (W.clientAuth.toVec ⟨⟨user, client, n⟩, sig⟩)], 1,
      .call FrameCall.next (receiveAuthResult W), .open⟩
  | accepting {n : Bytes} {sig : Sig} (h : Signs W C user userPk client n sig)
      (hverify : Accepts W user client n sig) : Connecting W C user userPk client b ⟨b,
      userNode W n user (.replying (W.authResult.toVec ⟨0, []⟩) none)
        [(0, W.serverHello.toVec ⟨n⟩)], [], 1, .call FrameCall.next (receiveAuthResult W), .open⟩
  | accepted {n : Bytes} {sig : Sig} (h : Signs W C user userPk client n sig)
      (hverify : Accepts W user client n sig) : Connecting W C user userPk client b ⟨b,
      userNode W n user .receiving
        [(0, W.serverHello.toVec ⟨n⟩), (1, W.authResult.toVec ⟨0, []⟩)], [], 1,
        .call FrameCall.next (receiveAuthResult W), .open⟩
  | rejecting {n : Bytes} {sig : Sig} (h : Signs W C user userPk client n sig)
      (hverify : ¬ Accepts W user client n sig) : Connecting W C user userPk client b ⟨b,
      deniedNode W n (.replying (denied W) (some ⟨[], ProtocolError.accessDenied.toU16⟩))
        .receiving true [(0, W.serverHello.toVec ⟨n⟩)], [], 1,
        .call FrameCall.next (receiveAuthResult W), .open⟩
  | rejected {n : Bytes} {sig : Sig} (h : Signs W C user userPk client n sig)
      (hverify : ¬ Accepts W user client n sig) {loop : LoopState}
      (hlost : ConnectionLoop.Lost loop)
      (hloop : ∀ frame later, loop ≠ .replying frame later)
      (task : FramesTask) (htask : ∀ frame, task ≠ .sending frame) (sinkOpen : Bool)
      {read : Nat} {opening : Opening} (hread : read = 1 ∧
        opening = .call FrameCall.next (receiveAuthResult W) ∨
        read = 2 ∧ opening = .ret (some (.error .accessDenied))) :
      Connecting W C user userPk client b ⟨b,
      deniedNode W n loop task sinkOpen [(0, W.serverHello.toVec ⟨n⟩), (1, denied W)],
      [], read, opening, .open⟩

/-- The client has just got the connection. -/
def opened (W : Wire) (n : Bytes) (user : PubKey) (b : BrokerServer) : Session :=
  ⟨b, userNode W n user .receiving
    [(0, W.serverHello.toVec ⟨n⟩), (1, W.authResult.toVec ⟨0, []⟩)], [], 2,
    .ret (some (.ok ())), .open⟩

/-- How far the loop is on its way out. -/
def loopRank : LoopState → Nat
  | .leaving => 1
  | .ended => 2
  | _ => 0

def taskRank : FramesTask → Nat
  | .leaving => 1
  | .ended => 2
  | _ => 0

/-- The number of the steps so far. -/
def progress (s : Session) : Nat :=
  loopRank s.node.loop + taskRank s.node.task +
    (2 * s.node.answers.length + s.toNode.length + s.node.sent.length + s.read)

/-- One step of the opening, which may give the client its connection. -/
def Advances (W : Wire) (C : Ed25519) (user : PubKey) (userPk : PrivKey) (client : PubKey)
    (b : BrokerServer) (s s' : Session) : Prop :=
  s'.progress = s.progress + 1 ∧ (Connecting W C user userPk client b s' ∨
    ∃ n sig, Signs W C user userPk client n sig ∧ Accepts W user client n sig ∧
      s' = opened W n user b)

variable {b : BrokerServer} {s s' : Session}

/-- The client has made no request. -/
theorem Connecting.idle (h : Connecting W C user userPk client b s) :
    s.isOpen = false ∧ s.client = .open ∧ s.broker = b := by
  cases h with
  | rejected h hverify hlost hloop task htask sinkOpen hread =>
    obtain ⟨-, rfl⟩ | ⟨-, rfl⟩ := hread <;> exact ⟨rfl, rfl, rfl⟩
  | _ => exact ⟨rfl, rfl, rfl⟩

/-- Before the node has answered, there is no frame to read. -/
theorem goOnOpening_waiting {k : Option Bytes → Opening}
    (hopening : s.opening = .call FrameCall.next k) (hnext : s.nextFrame = none) :
    s.goOnOpening = none := by
  unfold goOnOpening
  rw [hopening]
  show (s.nextFrame.bind fun frame => some _) = none
  rw [hnext]
  rfl

theorem goOnOpening_next {k : Option Bytes → Opening} {frame : Bytes}
    (hopening : s.opening = .call FrameCall.next k) (hnext : s.nextFrame = some frame) :
    s.goOnOpening = some { s with read := s.read + 1, opening := k (some frame) } := by
  unfold goOnOpening
  rw [hopening]
  show (s.nextFrame.bind fun frame => some _) = _
  rw [hnext]
  rfl

theorem receiveServerHello_signed (hW : W.HandshakeLaws) {n : Bytes} {sig : Sig}
    (h : Signs W C user userPk client n sig) :
    receiveServerHello W C user userPk client (some (W.serverHello.toVec ⟨n⟩)) =
      .call (FrameCall.send (W.clientAuth.toVec ⟨⟨user, client, n⟩, sig⟩)) (sentAuth W) := by
  have hhello := hW.serverHello ⟨n⟩
  unfold Serde.RoundTrips at hhello
  unfold Signs at h
  simp only [receiveServerHello, hhello, h]
  exact congrArg (Prog.call _) (funext fun r => by cases r <;> rfl)

theorem receiveServerHello_unsigned (hW : W.HandshakeLaws) {n : Bytes}
    (h : ∀ sig, ¬ Signs W C user userPk client n sig) :
    receiveServerHello W C user userPk client (some (W.serverHello.toVec ⟨n⟩)) =
      .ret (some (.error .signatureError)) := by
  have hhello := hW.serverHello ⟨n⟩
  unfold Serde.RoundTrips at hhello
  simp only [receiveServerHello, hhello]
  cases hsign : C.signContent userPk user (W.clientAuthContent.toVec ⟨user, client, n⟩) with
  | error e => rfl
  | ok sig => exact absurd hsign (h sig)

theorem receiveAuthResult_eq (hW : W.HandshakeLaws) (m : AuthResult) :
    receiveAuthResult W (some (W.authResult.toVec m)) =
      if m.result = 0 then .ret (some (.ok ()))
      else .ret ((ProtocolError.tryFrom m.result).map .error) := by
  have hresult := hW.authResult m
  unfold Serde.RoundTrips at hresult
  simp only [receiveAuthResult, hresult]
  rfl

theorem receive_of_node {E : Env} {msg : Message} {toNode : List Message} {node : ConnectionLoop}
    {broker : BrokerServer} (htoNode : s.toNode = msg :: toNode)
    (hnode : s.node.receive P W E s.broker msg = some (node, broker)) :
    s.receive P W E = some { s with node, broker, toNode } := by
  unfold Session.receive
  rw [htoNode]
  dsimp only
  rw [hnode]
  rfl

/-- The client goes on with the opening. -/
theorem Connecting.opening (hW : W.HandshakeLaws) (h : Connecting W C user userPk client b s)
    (hs : s.goOnOpening = some s') : Advances W C user userPk client b s s' := by
  cases h with
  | start =>
    have hstart : (new W C user userPk client b).goOnOpening = some ⟨b, .new,
        [.ofFrame (W.startProtocol.toVec .auth)], 0,
        .call FrameCall.next (receiveServerHello W C user userPk client), .open⟩ := rfl
    rw [hstart, Message.ofFrame_of_ne hW.startProtocol_ne_nil] at hs
    cases hs
    exact ⟨rfl, .inl .started⟩
  | started | replying | auth | accepting | rejecting =>
    rw [goOnOpening_waiting rfl rfl] at hs
    cases hs
  | hello n =>
    rw [goOnOpening_next rfl rfl] at hs
    cases hs
    refine ⟨rfl, .inl ?_⟩
    by_cases hsign : ∃ sig, Signs W C user userPk client n sig
    · obtain ⟨sig, hsig⟩ := hsign
      dsimp only
      rw [receiveServerHello_signed hW hsig]
      exact .signed hsig
    · have hno : ∀ sig, ¬ Signs W C user userPk client n sig := not_exists.mp hsign
      dsimp only
      rw [receiveServerHello_unsigned hW hno]
      exact .unsigned n hno
  | unsigned => cases hs
  | signed h =>
    rw [goOnOpening] at hs
    cases hs
    refine ⟨rfl, .inl ?_⟩
    dsimp only
    rw [Message.ofFrame_of_ne (hW.clientAuth_ne_nil _)]
    exact .auth h
  | @accepted n sig h hverify =>
    rw [goOnOpening_next rfl rfl] at hs
    cases hs
    refine ⟨rfl, .inr ⟨n, sig, h, hverify, ?_⟩⟩
    dsimp only
    rw [receiveAuthResult_eq hW]
    rfl
  | rejected h hverify hlost hloop task htask sinkOpen hread =>
    obtain ⟨rfl, rfl⟩ | ⟨rfl, rfl⟩ := hread
    · rw [goOnOpening_next rfl rfl] at hs
      cases hs
      refine ⟨rfl, .inl ?_⟩
      dsimp only
      rw [denied, receiveAuthResult_eq hW, if_neg (ProtocolError.toU16_ne_zero _),
        ProtocolError.tryFrom_toU16]
      exact .rejected h hverify hlost hloop task htask sinkOpen (.inr ⟨rfl, rfl⟩)
    · cases hs

/-- The node receives a message of the client. -/
theorem Connecting.receive (hW : W.HandshakeLaws) (h : Connecting W C user userPk client b s)
    {E : Env} (hs : s.receive P W E = some s') : Advances W C user userPk client b s s' := by
  cases h with
  | started =>
    cases (receive_of_node rfl (receive_start hW)).symm.trans hs
    exact ⟨rfl, .inl (.replying _)⟩
  | @auth n sig h =>
    by_cases hverify : Accepts W user client n sig
    · cases (receive_of_node rfl (receive_accepted hW hverify)).symm.trans hs
      exact ⟨rfl, .inl (.accepting h hverify)⟩
    · cases (receive_of_node rfl (receive_rejected hW hverify)).symm.trans hs
      exact ⟨rfl, .inl (.rejecting h hverify)⟩
  | _ => cases hs

/-- The loop of the node goes on. -/
theorem Connecting.loop (h : Connecting W C user userPk client b s)
    (hs : s.node.goOn.map (fun node => { s with node }) = some s') :
    Advances W C user userPk client b s s' := by
  obtain ⟨node, hnode, rfl⟩ := Option.map_eq_some_iff.mp hs
  cases h with
  | replying n =>
    cases hnode
    exact ⟨rfl, .inl (.hello n)⟩
  | accepting h hverify =>
    cases hnode
    exact ⟨rfl, .inl (.accepted h hverify)⟩
  | rejecting h hverify =>
    cases hnode
    exact ⟨rfl, .inl (.rejected h hverify (.awaiting (by decide)) (fun _ _ heq => by cases heq)
      .receiving (fun _ heq => by cases heq) true (.inl ⟨rfl, rfl⟩))⟩
  | rejected h hverify hlost hloop task htask sinkOpen hread =>
    cases hlost with
    | replying => exact absurd rfl (hloop _ _)
    | awaiting hcode =>
      cases (if_pos hcode).symm.trans hnode
      refine ⟨?_, .inl (.rejected h hverify .leaving (fun _ _ heq => by cases heq) task htask
        sinkOpen hread)⟩
      simp only [progress, deniedNode, loopRank]
      omega
    | leaving =>
      cases hnode
      refine ⟨?_, .inl (.rejected h hverify .ended (fun _ _ heq => by cases heq) task htask
        false hread)⟩
      simp only [progress, deniedNode, loopRank]
      omega
    | ended => cases hnode
  | _ => cases hnode

/-- The task of the node goes on. -/
theorem Connecting.task (h : Connecting W C user userPk client b s)
    (hs : s.node.goOnTask.map (fun node => { s with node }) = some s') :
    Advances W C user userPk client b s s' := by
  obtain ⟨node, hnode, rfl⟩ := Option.map_eq_some_iff.mp hs
  cases h with
  | rejected h hverify hlost hloop task htask sinkOpen hread =>
    cases ConnectionLoop.taskGoesOn hnode with
    | take _ hchannel => cases hchannel
    | send hsending | failed hsending => exact absurd hsending (htask _)
    | drained hreceiving _ hended =>
      change task = .receiving at hreceiving
      subst hreceiving
      refine ⟨?_, .inl (.rejected h hverify hlost hloop .leaving (fun _ heq => by cases heq)
        sinkOpen hread)⟩
      simp only [progress, deniedNode, taskRank]
      omega
    | close hleaving =>
      change task = .leaving at hleaving
      subst hleaving
      refine ⟨?_, .inl (.rejected h hverify hlost hloop .ended (fun _ heq => by cases heq)
        false hread)⟩
      simp only [progress, deniedNode, taskRank]
      omega
  | _ => cases hnode

/-- Nobody makes a request yet. -/
theorem Connecting.action (h : Connecting W C user userPk client b s) {a : Action}
    (hs : s.step P W a = some s') :
    a = .opening ∨ (∃ E, a = .receive E) ∨ a = .loop ∨ a = .task := by
  obtain ⟨hopen, hclient, -⟩ := h.idle
  cases a with
  | opening => exact .inl rfl
  | receive E => exact .inr (.inl ⟨E, rfl⟩)
  | loop => exact .inr (.inr (.inl rfl))
  | task => exact .inr (.inr (.inr rfl))
  | request id overlay content =>
    change s.request W id overlay content = some s' at hs
    unfold Session.request at hs
    rw [if_neg (by simp [hopen])] at hs
    cases hs
  | read =>
    change s.readFrame W = some s' at hs
    unfold Session.readFrame at hs
    rw [hopen] at hs
    cases hs
  | call id a =>
    have hnone : s.client.calls id = none := by rw [hclient]; rfl
    change ((s.client.calls id).bind fun call => _) = some s' at hs
    rw [hnone] at hs
    cases hs
  | stream id a =>
    have hnone : s.client.streamCalls id = none := by rw [hclient]; rfl
    change ((s.client.streamCalls id).bind fun call => _) = some s' at hs
    rw [hnone] at hs
    cases hs

theorem Connecting.step (hW : W.HandshakeLaws) (h : Connecting W C user userPk client b s)
    {a : Action} (hs : s.step P W a = some s') : Advances W C user userPk client b s s' := by
  obtain rfl | ⟨E, rfl⟩ | rfl | rfl := h.action hs
  · exact h.opening hW hs
  · exact h.receive hW hs
  · exact h.loop hs
  · exact h.task hs

theorem Connecting.progress_le (h : Connecting W C user userPk client b s) : s.progress ≤ 12 := by
  cases h with
  | @rejected n sig h hverify loop hlost hloop task htask sinkOpen read opening hread =>
    have hloopRank : loopRank loop ≤ 2 := by cases loop <;> simp [loopRank]
    have htaskRank : taskRank task ≤ 2 := by cases task <;> simp [taskRank]
    show loopRank loop + taskRank task + (6 + read) ≤ 12
    omega
  | _ => exact Nat.le_of_ble_eq_true rfl

/-- As long as the client does not have its answer, the opening goes on. -/
theorem Connecting.enabled (P : Primitives) (hW : W.HandshakeLaws) (E : Env)
    (h : Connecting W C user userPk client b s) (hopening : ∀ res, s.opening ≠ .ret res) :
    ∃ a ∈ [Action.opening, .receive E, .loop], (s.step P W a).isSome := by
  have hopening' (h : s.goOnOpening.isSome) :
      ∃ a ∈ [Action.opening, .receive E, .loop], (s.step P W a).isSome := ⟨.opening, by simp, h⟩
  have hreceive (h : (s.receive P W E).isSome) :
      ∃ a ∈ [Action.opening, .receive E, .loop], (s.step P W a).isSome := ⟨.receive E, by simp, h⟩
  have hloop (h : (s.step P W .loop).isSome) :
      ∃ a ∈ [Action.opening, .receive E, .loop], (s.step P W a).isSome := ⟨.loop, by simp, h⟩
  cases h with
  | start | signed => exact hopening' rfl
  | hello | accepted => exact hopening' (by rw [goOnOpening_next rfl rfl]; rfl)
  | started => exact hreceive (by rw [receive_of_node rfl (receive_start hW)]; rfl)
  | replying | accepting | rejecting => exact hloop rfl
  | unsigned => exact absurd rfl (hopening _)
  | @auth n sig h =>
    by_cases hverify : Accepts W user client n sig
    · exact hreceive (by rw [receive_of_node rfl (receive_accepted hW hverify)]; rfl)
    · exact hreceive (by rw [receive_of_node rfl (receive_rejected hW hverify)]; rfl)
  | rejected h hverify hlost hloop' task htask sinkOpen hread =>
    obtain ⟨rfl, rfl⟩ | ⟨rfl, rfl⟩ := hread
    · exact hopening' (by rw [goOnOpening_next rfl rfl]; rfl)
    · exact absurd rfl (hopening _)

/-! ## The connection is open -/

/-- A session whose client holds a connection. -/
structure Connected (W : Wire) (C : Ed25519) (user : PubKey) (userPk : PrivKey) (client : PubKey)
    (s : Session) : Prop where
  opening : s.opening = .ret (some (.ok ()))
  handler : s.node.handler = .authenticated user
  accepted : ∃ n sig, Signs W C user userPk client n sig ∧ Accepts W user client n sig

theorem Connected.step (h : Connected W C user userPk client s) {a : Action}
    (hs : s.step P W a = some s') : Connected W C user userPk client s' := by
  have hsame (hopening : s'.opening = s.opening) (hhandler : s'.node.handler = s.node.handler) :
      Connected W C user userPk client s' :=
    ⟨hopening.trans h.opening, hhandler.trans h.handler, h.accepted⟩
  cases a with
  | opening =>
    change s.goOnOpening = some s' at hs
    unfold goOnOpening at hs
    rw [h.opening] at hs
    cases hs
  | request id overlay content =>
    change s.request W id overlay content = some s' at hs
    unfold Session.request at hs
    split at hs
    · obtain ⟨remote, -, hs⟩ := Option.bind_eq_some_iff.mp hs
      cases hs
      exact hsame rfl rfl
    · cases hs
  | receive E =>
    change s.receive P W E = some s' at hs
    unfold Session.receive at hs
    split at hs
    · cases hs
    · rename_i msg toNode _
      obtain ⟨⟨node, broker⟩, hnode, hs⟩ := Option.bind_eq_some_iff.mp hs
      cases hs
      refine hsame rfl ?_
      obtain ⟨-, ⟨data, -, hhandle⟩ | ⟨-, rfl, -⟩ | ⟨-, rfl, -⟩⟩ :=
        ConnectionLoop.receive_eq_some hnode
      · obtain ⟨reply, handler, hincoming, hnode⟩ := ConnectionLoop.handle_eq_some hhandle
        rw [h.handler] at hincoming ⊢
        obtain ⟨e, -, rfl⟩ | ⟨r, -, rfl⟩ := hnode <;>
          exact ProtocolHandler.handleIncoming_authenticated hincoming
      · rfl
      · rfl
  | loop =>
    obtain ⟨node, hnode, rfl⟩ := Option.map_eq_some_iff.mp hs
    exact hsame rfl (by cases ConnectionLoop.goesOn hnode <;> rfl)
  | task =>
    obtain ⟨node, hnode, rfl⟩ := Option.map_eq_some_iff.mp hs
    exact hsame rfl (by cases ConnectionLoop.taskGoesOn hnode <;> rfl)
  | read =>
    change s.readFrame W = some s' at hs
    unfold Session.readFrame at hs
    split at hs
    · obtain ⟨frame, -, hs⟩ := Option.bind_eq_some_iff.mp hs
      cases hs
      exact hsame rfl rfl
    · cases hs
  | call id a | stream id a =>
    obtain ⟨call, -, hs⟩ := Option.bind_eq_some_iff.mp hs
    obtain ⟨call', -, hs⟩ := Option.bind_eq_some_iff.mp hs
    cases hs
    exact hsame rfl rfl

/-- In every run the client waits for its connection, which takes a step in each step of the run, or
it holds it. -/
theorem Connecting.run (hW : W.HandshakeLaws) {as : List Action}
    (h : Connecting W C user userPk client b s) (hrun : s.run P W as = some s') :
    Connecting W C user userPk client b s' ∧ s'.progress = s.progress + as.length ∨
      Connected W C user userPk client s' := by
  induction as generalizing s with
  | nil =>
    cases hrun
    exact .inl ⟨h, rfl⟩
  | cons a as ih =>
    obtain ⟨s₁, hs, hrun⟩ := Steps.run_cons.mp hrun
    obtain ⟨hprogress, hconnecting | ⟨n, sig, hsig, hverify, rfl⟩⟩ := h.step hW hs
    · obtain ⟨h', hprogress'⟩ | hconnected := ih hconnecting hrun
      · refine .inl ⟨h', ?_⟩
        rw [hprogress', hprogress, List.length_cons]
        omega
      · exact .inr hconnected
    · have hconnected : Connected W C user userPk client (opened W n user b) :=
        ⟨rfl, rfl, n, sig, hsig, hverify⟩
      exact .inr (Steps.run_invariant (fun h hs => Connected.step h hs) hconnected hrun)

/-- What the client learns about the opening. -/
inductive Outcome (W : Wire) (C : Ed25519) (user : PubKey) (userPk : PrivKey) (client : PubKey)
    (s : Session) : Option (Except ProtocolError Unit) → Prop
  | open (h : s.node.handler = .authenticated user) :
      Outcome W C user userPk client s (some (.ok ()))
  | unsigned {n : Bytes} (hprotocol : s.node.handler.protocol = .auth)
      (h : ∀ sig, ¬ Signs W C user userPk client n sig) :
      Outcome W C user userPk client s (some (.error .signatureError))
  | denied {n : Bytes} {sig : Sig} (hprotocol : s.node.handler.protocol = .auth)
      (hlost : ConnectionLoop.Lost s.node.loop) (h : Signs W C user userPk client n sig)
      (hverify : ¬ Accepts W user client n sig) :
      Outcome W C user userPk client s (some (.error .accessDenied))

theorem Connecting.outcome (h : Connecting W C user userPk client b s)
    {res : Option (Except ProtocolError Unit)} (hres : s.opening = .ret res) :
    Outcome W C user userPk client s res := by
  cases h with
  | unsigned n h =>
    cases hres
    exact .unsigned rfl h
  | rejected h hverify hlost hloop task htask sinkOpen hread =>
    obtain ⟨-, rfl⟩ | ⟨-, rfl⟩ := hread
    · cases hres
    · cases hres
      exact .denied rfl hlost h hverify
  | _ => cases hres

theorem Connecting.protocol_broker (h : Connecting W C user userPk client b s)
    (hprotocol : s.node.handler.protocol = .broker) : s.node.handler = .authenticated user ∧
      ∃ n sig, Signs W C user userPk client n sig ∧ Accepts W user client n sig := by
  cases h with
  | accepting h hverify | accepted h hverify => exact ⟨rfl, _, _, h, hverify⟩
  | _ => cases hprotocol

/-- The client and the node agree in every run, however their steps interleave. The node serves
requests only for the user, whose signature of the nonce it has verified; the client never panics,
and holds the connection only if the node serves it, or has an error only if the node does not. With
a pair of keys there is no error. As long as the client has no answer, one of the two goes on, and
this comes to an end after some steps. -/
theorem handshake_agrees (hW : W.HandshakeLaws) (hverify : W.verify = C.verify) (E : Env)
    {as : List Action} (hrun : (new W C user userPk client b).run P W as = some s) :
    (s.node.handler.protocol = .broker → s.node.handler = .authenticated user ∧
      ∃ n sig, Signs W C user userPk client n sig ∧ Accepts W user client n sig) ∧
    (∀ res, s.opening = .ret res → Outcome W C user userPk client s res) ∧
    (C.Pair userPk user → ∀ e, s.opening ≠ .ret (some (.error e))) ∧
    ((∀ res, s.opening ≠ .ret res) → as.length ≤ 12 ∧
      ∃ a ∈ [Action.opening, .receive E, .loop], (s.step P W a).isSome) := by
  obtain ⟨h, hprogress⟩ | h := Connecting.run hW .start hrun
  · refine ⟨h.protocol_broker, fun res => h.outcome, fun hpair e he => ?_, fun hopening => ?_⟩
    · have hsigns (n : Bytes) :
          ∃ sig, Signs W C user userPk client n sig ∧ Accepts W user client n sig := by
        unfold Signs Accepts
        rw [hverify]
        exact hpair.verify_sign _
      cases h.outcome he with
      | @unsigned n _ hno =>
        obtain ⟨sig, hsig, -⟩ := hsigns n
        exact hno sig hsig
      | @denied n sig _ _ hsig hno =>
        obtain ⟨sig', hsig', haccepts⟩ := hsigns n
        cases Except.ok.inj (hsig.symm.trans hsig')
        exact hno haccepts
    · refine ⟨?_, h.enabled P hW E hopening⟩
      have hzero : (new W C user userPk client b).progress = 0 := rfl
      have hle := h.progress_le
      omega
  · refine ⟨fun _ => ⟨h.handler, h.accepted⟩, fun res hres => ?_, fun _ e he => ?_,
      fun hopening => absurd h.opening (hopening _)⟩
    · cases h.opening.symm.trans hres
      exact .open h.handler
    · cases h.opening.symm.trans he

end Session

end

theorem Reference.wire_handshakeLaws (brokerMessage : Serde BrokerMessage)
    (verify : Bytes → Sig → PubKey → Except LofireError Unit) :
    (wire brokerMessage verify).HandshakeLaws where
  startProtocol := serde_roundTrips _ _
  startProtocol_ne_nil := List.cons_ne_nil _ _
  serverHello := serde_roundTrips _
  clientAuth := serde_roundTrips _
  clientAuth_ne_nil _ := List.cons_ne_nil _ _
  authResult := serde_roundTrips _

namespace TwoBlocks

/-- Every signature is taken for valid. -/
def signer : Ed25519 where
  isKeypair _ := true
  sign _ _ := .replicate 64 8
  isPublicKey _ := true
  isSignature _ := true
  verifyStrict _ _ _ := true

def privKey : PrivKey := ⟨.replicate 32 9⟩

def session : Session := .new wire signer user privKey client broker

def opening : List Session.Action :=
  [.opening, .receive env, .loop, .opening, .opening, .receive env, .loop, .opening]

end TwoBlocks

open TwoBlocks in
theorem Session.handshake_agrees_signer : ∃ s,
    session.run TwoBlocks.primitives wire TwoBlocks.opening = some s ∧
    s.isOpen = true ∧ s.node.handler = .authenticated user ∧
    ∀ e, s.opening ≠ .ret (some (.error e)) := by
  have hopen : (session.run TwoBlocks.primitives wire TwoBlocks.opening).map (fun s =>
      (s.isOpen, s.node.handler.protocol)) = some (true, .broker) := by decide +kernel
  obtain ⟨s, hrun, hs⟩ := Option.map_eq_some_iff.mp hopen
  obtain ⟨hisOpen, hprotocol⟩ := Prod.mk.inj hs
  obtain ⟨hbroker, -, hpair, -⟩ := handshake_agrees
    (Reference.wire_handshakeLaws Reference.brokerMessage fun _ _ _ => .ok ()) rfl env hrun
  exact ⟨s, hrun, hisOpen, (hbroker hprotocol).1, hpair ⟨rfl, rfl, fun _ => rfl, fun _ => rfl⟩⟩

end Lofire
