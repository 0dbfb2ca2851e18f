import Lofire.Broker.Protocol
import Lofire.Net.Codecs

/-!
# Authentication before any request

A connection is a list of frames, each with what the outside world answers while it is handled; the
broker may change in any way between two frames. `Inv` says what the handler of a connection can be
after the frames so far: it serves requests of a user only after a frame that authenticates this
user for the nonce of the connection (`Authenticated`).
-/

namespace Lofire

/-- A frame, with the state of the broker when it arrives. -/
structure Incoming where
  frame : Bytes
  env : Env
  broker : BrokerServer

/-- A frame and the reply to it. -/
abbrev Exchange := Incoming × ProtocolHandler.Reply

variable {P : Primitives} {W : Wire}

/-- The handler after the frames of a connection, with the replies. -/
def ProtocolHandler.run (P : Primitives) (W : Wire) (h : ProtocolHandler) :
    List Incoming → Except Stop (List Exchange × ProtocolHandler)
  | [] => .ok ([], h)
  | i :: is => do
    let (reply, h', _) ← h.handleIncoming P W i.env i.broker i.frame
    let (past, h'') ← run P W h' is
    return ((i, reply) :: past, h'')

/-- The frame authenticates `u` for the nonce `n`. -/
def Authenticates (W : Wire) (n : Bytes) (u : PubKey) (frame : Bytes) : Prop :=
  ∃ m, W.clientAuth.fromSlice frame = some m ∧ m.content.user = u ∧ m.content.nonce = n ∧
    W.verify (W.clientAuthContent.toVec m.content) m.sig u = .ok ()

/-- The server has sent its hello with the nonce `n`, in answer to the first frame that chooses a
protocol; `rest` came after it. -/
def Opened (W : Wire) (n : Bytes) (past rest : List Exchange) : Prop :=
  ∃ pre hello, past = pre ++ hello :: rest ∧
    (∀ x ∈ pre, W.startProtocol.fromSlice x.1.frame = none) ∧
    W.startProtocol.fromSlice hello.1.frame = some .auth ∧ hello.1.env.randomBuf.toList = n ∧
    hello.2.frame = .ok (W.serverHello.toVec ⟨n⟩)

/-- A frame after the server's hello authenticates `u` for its nonce. -/
def Authenticated (W : Wire) (past : List Exchange) (u : PubKey) : Prop :=
  ∃ n rest, Opened W n past rest ∧ ∃ x ∈ rest, Authenticates W n u x.1.frame

theorem Opened.concat {n : Bytes} {past rest : List Exchange} (h : Opened W n past rest)
    (x : Exchange) : Opened W n (past ++ [x]) (rest ++ [x]) := by
  obtain ⟨pre, hello, rfl, hpre, hhello⟩ := h
  exact ⟨pre, hello, by simp, hpre, hhello⟩

theorem Authenticated.concat {past : List Exchange} {u : PubKey} (h : Authenticated W past u)
    (x : Exchange) : Authenticated W (past ++ [x]) u := by
  obtain ⟨n, rest, hopened, y, hy, hauth⟩ := h
  exact ⟨n, rest ++ [x], hopened.concat x, y, List.mem_append_left _ hy, hauth⟩

/-! ## The authentication protocol -/

namespace AuthProtocolHandler

/-- The hello of the server carries the random bytes drawn. -/
theorem handleInit_eq (E : Env) : (handleInit W E).run.run new =
    .ok (.ok (W.serverHello.toVec ⟨E.randomBuf.toList⟩),
      ⟨.serverHelloSent, some E.randomBuf.toList, none⟩) := rfl

theorem matchNonce_eq (m : ClientAuth) (n : Bytes) :
    (matchNonce m).run.run ⟨.clientAuthReceived, some n, none⟩ =
      if m.nonce = n then .ok (.ok [], ⟨.authResultOk, some n, some m.user⟩)
      else .ok (.error .accessDenied, ⟨.authResultError, some n, none⟩) := by
  have hrun : (matchNonce m).run.run ⟨.clientAuthReceived, some n, none⟩ =
      (ite (m.nonce ≠ n) (do
        try consume .error catch _ => pure ()
        throw .accessDenied) (do
        consume .ok
        modify fun a => { a with user := some m.user }
        return []) : AuthM Bytes).run.run ⟨.clientAuthReceived, some n, none⟩ := rfl
  rw [hrun]
  by_cases hnonce : m.nonce = n
  · rw [if_neg (not_not.mpr hnonce), if_pos hnonce]
    rfl
  · rw [if_pos hnonce, if_neg hnonce]
    rfl

/-- What `processState` does with a frame while it waits for the authentication. -/
theorem processState_waiting (n frame : Bytes) :
    (processState W frame).run.run ⟨.serverHelloSent, some n, none⟩ =
      match W.clientAuth.fromSlice frame with
      | none => .ok (.error .serializationError, ⟨.serverHelloSent, some n, none⟩)
      | some m =>
        match W.verify (W.clientAuthContent.toVec m.content) m.sig m.user with
        | .error _ => .ok (.error .accessDenied, ⟨.clientAuthReceived, some n, none⟩)
        | .ok () => (matchNonce m).run.run ⟨.clientAuthReceived, some n, none⟩ := by
  cases hm : W.clientAuth.fromSlice frame with
  | none =>
    simp only [processState, hm]
    rfl
  | some m =>
    cases hverify : W.verify (W.clientAuthContent.toVec m.content) m.sig m.user with
    | error e =>
      simp only [processState, hm, hverify]
      rfl
    | ok _ =>
      simp only [processState, hm, hverify]
      rfl

theorem processState_other {machine : AuthProtocolServerState} (h : machine ≠ .serverHelloSent)
    (n frame : Bytes) : (processState W frame).run.run ⟨machine, some n, none⟩ =
      .ok (.error .invalidState, ⟨machine, some n, none⟩) := by
  cases machine <;> first | exact absurd rfl h | rfl

/-- After a frame the handler knows a user that the frame authenticates, or none. -/
theorem processState_cases (machine : AuthProtocolServerState) (n frame : Bytes) :
    (∃ e machine', (processState W frame).run.run ⟨machine, some n, none⟩ =
      .ok (.error e, ⟨machine', some n, none⟩)) ∨
    ∃ u machine', Authenticates W n u frame ∧
      (processState W frame).run.run ⟨machine, some n, none⟩ =
        .ok (.ok [], ⟨machine', some n, some u⟩) := by
  by_cases hmachine : machine = .serverHelloSent
  · subst hmachine
    rw [processState_waiting]
    cases hm : W.clientAuth.fromSlice frame with
    | none => exact .inl ⟨_, _, rfl⟩
    | some m =>
      dsimp only
      cases hverify : W.verify (W.clientAuthContent.toVec m.content) m.sig m.user with
      | error e => exact .inl ⟨_, _, rfl⟩
      | ok _ =>
        dsimp only
        rw [matchNonce_eq]
        by_cases hnonce : m.nonce = n
        · rw [if_pos hnonce]
          exact .inr ⟨m.user, _, ⟨m, hm, rfl, hnonce, hverify⟩, rfl⟩
        · rw [if_neg hnonce]
          exact .inl ⟨_, _, rfl⟩
  · exact .inl ⟨_, _, processState_other hmachine n frame⟩

/-- The same of `handleIncoming`: the frame authenticates a user, or the reply comes with a code to
close the connection. -/
theorem handleIncoming_cases (machine : AuthProtocolServerState) (n frame : Bytes) :
    (∃ res code machine', handleIncoming W ⟨machine, some n, none⟩ frame =
      .ok ((res, some code), ⟨machine', some n, none⟩)) ∨
    ∃ res u machine', Authenticates W n u frame ∧
      handleIncoming W ⟨machine, some n, none⟩ frame =
        .ok ((res, none), ⟨machine', some n, some u⟩) := by
  rcases processState_cases (W := W) machine n frame with
    ⟨e, machine', hrun⟩ | ⟨u, machine', hauth, hrun⟩
  · left
    simp only [handleIncoming, hrun]
    exact ⟨_, _, machine', rfl⟩
  · right
    simp only [handleIncoming, hrun]
    exact ⟨_, u, machine', hauth, rfl⟩

end AuthProtocolHandler

/-! ## Requests of an authenticated user -/

namespace HandlerM

variable {α β : Type}

/-- No `unwrap` of a part of the handler fails. -/
def NoUnwrap (x : HandlerM α) : Prop := ∀ sv, x.run sv ≠ .error .unwrap

theorem NoUnwrap.pure (a : α) : NoUnwrap (Pure.pure a : HandlerM α) := fun _ h => nomatch h

theorem NoUnwrap.bind {x : HandlerM α} {f : α → HandlerM β} (hx : NoUnwrap x)
    (hf : ∀ a, NoUnwrap (f a)) : NoUnwrap (x >>= f) := by
  intro sv
  rw [StateT.run_bind]
  cases hrun : x.run sv with
  | error e =>
    intro h
    cases h
    exact hx sv hrun
  | ok res => exact hf res.1 res.2

theorem NoUnwrap.serve (x : ServerM α) : NoUnwrap (serve x) := by
  intro sv h
  change HandlerM.serve x sv = _ at h
  unfold HandlerM.serve at h
  split at h
  · cases h
  · cases h

end HandlerM

/-- The handler of the requests has no part that can be missing. -/
theorem BrokerProtocolHandler.handleIncoming_noUnwrap (P : Primitives) (W : Wire) (E : Env)
    (h : BrokerProtocolHandler) (msg : BrokerMessage) : (h.handleIncoming P W E msg).NoUnwrap := by
  have hpanic : HandlerM.NoUnwrap (throw .panic : HandlerM (BrokerMessage × Option Later)) :=
    fun _ h => nomatch h
  unfold handleIncoming
  dsimp only
  split
  · exact .bind (.serve _) fun _ => .pure _
  · exact .pure _
  · split
    · unfold handleOverlayRequest
      dsimp only
      split
      all_goals exact .bind (.serve _) fun _ => .pure _
    · exact .pure _
  · exact hpanic

namespace ProtocolHandler

/-! ## The handler after any frames -/

/-- What the handler can be after the exchanges `past`. -/
inductive Inv (W : Wire) (past : List Exchange) : ProtocolHandler → Prop
  | start (h : ∀ x ∈ past, W.startProtocol.fromSlice x.1.frame = none) :
      Inv W past ⟨.start, none, none⟩
  | auth {n : Bytes} {rest : List Exchange} (machine : AuthProtocolServerState)
      (h : Opened W n past rest) : Inv W past ⟨.auth, some ⟨machine, some n, none⟩, none⟩
  | broker {u : PubKey} (h : Authenticated W past u) : Inv W past ⟨.broker, none, some ⟨u⟩⟩

/-- From `h` the handler replies to a frame, keeps what it can be, and changes the broker only if
`h` serves requests. -/
structure Replies (P : Primitives) (W : Wire) (past : List Exchange) (h : ProtocolHandler)
    (i : Incoming) : Prop where
  noUnwrap : h.handleIncoming P W i.env i.broker i.frame ≠ .error .unwrap
  inv : ∀ reply h' sv', h.handleIncoming P W i.env i.broker i.frame = .ok (reply, h', sv') →
    Inv W (past ++ [(i, reply)]) h'
  idle : ∀ reply h' sv', h.handleIncoming P W i.env i.broker i.frame = .ok (reply, h', sv') →
    h.protocol ≠ .broker → sv' = i.broker
  stays : ∀ reply h' sv', h.handleIncoming P W i.env i.broker i.frame = .ok (reply, h', sv') →
    h.protocol = .broker → h' = h

variable {past : List Exchange} {h : ProtocolHandler} {i : Incoming}

/-- A reply that leaves the broker as it is. -/
theorem Replies.of_eq {reply : Reply} {h' : ProtocolHandler}
    (hrun : h.handleIncoming P W i.env i.broker i.frame = .ok (reply, h', i.broker))
    (hinv : Inv W (past ++ [(i, reply)]) h') (hstays : h.protocol = .broker → h' = h) :
    Replies P W past h i := by
  refine ⟨?_, ?_, ?_, ?_⟩
  · rw [hrun]
    nofun
  all_goals
    intro reply₁ h₁ sv₁ hrun₁
    obtain ⟨rfl, rfl, rfl⟩ : reply = reply₁ ∧ h' = h₁ ∧ i.broker = sv₁ := by
      simpa [hrun] using hrun₁
  · exact hinv
  · exact fun _ => rfl
  · exact hstays

/-- The handler stops, for another reason than an `unwrap`. -/
theorem Replies.of_error {e : Stop}
    (hrun : h.handleIncoming P W i.env i.broker i.frame = .error e) (he : e ≠ .unwrap) :
    Replies P W past h i := by
  refine ⟨fun hunwrap => ?_, ?_, ?_, ?_⟩
  · rw [hrun, Except.error.injEq] at hunwrap
    exact he hunwrap
  all_goals
    intro reply h' sv' hok
    rw [hrun] at hok
    cases hok

theorem Inv.replies_start (hpast : ∀ x ∈ past, W.startProtocol.fromSlice x.1.frame = none)
    (i : Incoming) : Replies P W past ⟨.start, none, none⟩ i := by
  rcases hframe : W.startProtocol.fromSlice i.frame with _ | _ | _
  · have hrun : handleIncoming P W i.env ⟨.start, none, none⟩ i.broker i.frame =
        .ok (⟨.error .serializationError, none⟩, ⟨.start, none, none⟩, i.broker) := by
      simp only [handleIncoming, hframe]
    refine .of_eq hrun (.start fun x hx => ?_) fun _ => rfl
    rcases List.mem_append.mp hx with hx | hx
    · exact hpast x hx
    · rw [List.mem_singleton.mp hx]
      exact hframe
  · -- the client chooses to authenticate
    have hrun : handleIncoming P W i.env ⟨.start, none, none⟩ i.broker i.frame =
        .ok (⟨.ok (W.serverHello.toVec ⟨i.env.randomBuf.toList⟩), none⟩,
          ⟨.auth, some ⟨.serverHelloSent, some i.env.randomBuf.toList, none⟩, none⟩, i.broker) := by
      simp only [handleIncoming, hframe, AuthProtocolHandler.handleInit_eq]
      rfl
    have hopened : Opened W i.env.randomBuf.toList
        (past ++ [(i, ⟨.ok (W.serverHello.toVec ⟨i.env.randomBuf.toList⟩), none⟩)]) [] :=
      ⟨past, _, rfl, hpast, hframe, rfl, rfl⟩
    exact .of_eq hrun (.auth _ hopened) fun h => absurd h (by decide)
  · have hrun : handleIncoming P W i.env ⟨.start, none, none⟩ i.broker i.frame = .error .panic := by
      simp only [handleIncoming, hframe]
    exact .of_error hrun (by decide)

theorem Inv.replies_auth {n : Bytes} {rest : List Exchange} (hopened : Opened W n past rest)
    (machine : AuthProtocolServerState) (i : Incoming) :
    Replies P W past ⟨.auth, some ⟨machine, some n, none⟩, none⟩ i := by
  rcases AuthProtocolHandler.handleIncoming_cases (W := W) machine n i.frame with
    ⟨res, code, machine', hauth⟩ | ⟨res, u, machine', hframe, hauth⟩
  · have hrun : handleIncoming P W i.env ⟨.auth, some ⟨machine, some n, none⟩, none⟩
      i.broker i.frame =
        .ok (⟨res, some ⟨[], code⟩⟩, ⟨.auth, some ⟨machine', some n, none⟩, none⟩, i.broker) := by
      simp only [handleIncoming, unwrap, bind, Except.bind, hauth, pure, Except.pure]
    exact .of_eq hrun (.auth machine' (hopened.concat _)) fun h =>
      absurd h (show ProtocolType.auth ≠ .broker by decide)
  · have hrun : handleIncoming P W i.env ⟨.auth, some ⟨machine, some n, none⟩, none⟩
      i.broker i.frame =
        .ok (⟨res, none⟩, ⟨.broker, none, some ⟨u⟩⟩, i.broker) := by
      simp only [handleIncoming, unwrap, bind, Except.bind, hauth, pure, Except.pure,
        AuthProtocolHandler.getUser]
    have hauthenticated : Authenticated W (past ++ [(i, ⟨res, none⟩)]) u :=
      ⟨n, _, hopened.concat _, (i, ⟨res, none⟩),
        List.mem_append_right _ (List.mem_singleton_self _), hframe⟩
    exact .of_eq hrun (.broker hauthenticated) fun h =>
      absurd h (show ProtocolType.auth ≠ .broker by decide)

theorem Inv.replies_broker {u : PubKey} (hauth : Authenticated W past u) (i : Incoming) :
    Replies P W past ⟨.broker, none, some ⟨u⟩⟩ i := by
  cases hframe : W.brokerMessage.fromSlice i.frame with
  | none =>
    have hrun : handleIncoming P W i.env ⟨.broker, none, some ⟨u⟩⟩ i.broker i.frame =
        .ok (⟨.error .serializationError, none⟩, ⟨.broker, none, some ⟨u⟩⟩, i.broker) := by
      simp only [handleIncoming, hframe]
    exact .of_eq hrun (.broker (hauth.concat _)) fun _ => rfl
  | some message =>
    have hno := BrokerProtocolHandler.handleIncoming_noUnwrap P W i.env ⟨u⟩ message i.broker
    cases hserve : (BrokerProtocolHandler.handleIncoming P W i.env ⟨u⟩ message).run i.broker with
    | error e =>
      have hrun : handleIncoming P W i.env ⟨.broker, none, some ⟨u⟩⟩ i.broker
          i.frame = .error e := by
        simp only [handleIncoming, hframe, unwrap, bind, Except.bind, hserve]
      refine .of_error hrun fun he => ?_
      rw [hserve, he] at hno
      exact hno rfl
    | ok res =>
      have hrun : handleIncoming P W i.env ⟨.broker, none, some ⟨u⟩⟩ i.broker i.frame =
          .ok (⟨.ok (W.brokerMessage.toVec res.1.1), res.1.2⟩,
            ⟨.broker, none, some ⟨u⟩⟩, res.2) := by
        simp only [handleIncoming, hframe, unwrap, bind, Except.bind, hserve, pure, Except.pure]
      refine ⟨fun hunwrap => ?_, ?_, ?_, ?_⟩
      · rw [hrun] at hunwrap
        cases hunwrap
      all_goals
        intro reply h' sv' hok
        rw [hrun] at hok
        cases hok
      · exact .broker (hauth.concat _)
      · exact fun h => absurd rfl h
      · exact fun _ => rfl

theorem Inv.replies (hinv : Inv W past h) (i : Incoming) : Replies P W past h i := by
  cases hinv with
  | start hpast => exact replies_start hpast i
  | auth machine hopened => exact replies_auth hopened machine i
  | broker hauth => exact replies_broker hauth i

/-- What the handler can be is kept over all frames of a connection. -/
theorem Inv.run (hinv : Inv W past h) (is : List Incoming) :
    h.run P W is ≠ .error .unwrap ∧ ∀ past' h', h.run P W is = .ok (past', h') →
      past'.map Prod.fst = is ∧ Inv W (past ++ past') h' ∧ (h.protocol = .broker → h' = h) := by
  induction is generalizing past h with
  | nil =>
    refine ⟨nofun, fun past' h' hrun => ?_⟩
    cases hrun
    exact ⟨rfl, by simpa using hinv, fun _ => rfl⟩
  | cons i is ih =>
    have hstep : Replies P W past h i := hinv.replies i
    cases hfirst : h.handleIncoming P W i.env i.broker i.frame with
    | error e =>
      have hrun : h.run P W (i :: is) = .error e := by
        simp only [ProtocolHandler.run, hfirst, bind, Except.bind]
      rw [hrun]
      refine ⟨fun he => ?_, nofun⟩
      cases he
      exact hstep.noUnwrap hfirst
    | ok res =>
      obtain ⟨reply, h₁, sv₁⟩ := res
      obtain ⟨hno, hrest⟩ := ih (hstep.inv reply h₁ sv₁ hfirst)
      cases hsecond : h₁.run P W is with
      | error e =>
        have hrun : h.run P W (i :: is) = .error e := by
          simp only [ProtocolHandler.run, hfirst, hsecond, bind, Except.bind]
        rw [hrun]
        rw [hsecond] at hno
        exact ⟨hno, nofun⟩
      | ok res' =>
        obtain ⟨past₂, h₂⟩ := res'
        have hrun : h.run P W (i :: is) = .ok ((i, reply) :: past₂, h₂) := by
          simp only [ProtocolHandler.run, hfirst, hsecond, bind, Except.bind, pure, Except.pure]
        rw [hrun]
        refine ⟨nofun, fun past' h' heq => ?_⟩
        cases heq
        obtain ⟨hframes, hinv', hstays⟩ := hrest past₂ h₂ hsecond
        refine ⟨by rw [List.map_cons, hframes], by simpa using hinv', fun hbroker => ?_⟩
        have hsame : h₁ = h := hstep.stays reply h₁ sv₁ hfirst hbroker
        rw [← hsame]
        exact hstays (hsame ▸ hbroker)

/-- No request is served without authentication. Over the frames of a connection no part of the
handler is missing where it is needed; while the handler does not serve requests the broker stays as
it is; and if it serves the requests of `u`, a frame after the server's hello has authenticated `u`
for its nonce, and `u` stays the user for all further frames. -/
theorem served_authenticated (P : Primitives) (W : Wire) (is : List Incoming) :
    ProtocolHandler.new.run P W is ≠ .error .unwrap ∧
    ∀ past h, ProtocolHandler.new.run P W is = .ok (past, h) →
      past.map Prod.fst = is ∧
      (h.protocol ≠ .broker → ∀ (i : Incoming) reply h' sv,
        h.handleIncoming P W i.env i.broker i.frame = .ok (reply, h', sv) → sv = i.broker) ∧
      (h.protocol = .broker → ∃ u, h.brokerProtocol = some ⟨u⟩ ∧ Authenticated W past u ∧
        ∀ more past' h', h.run P W more = .ok (past', h') →
          h'.protocol = .broker ∧ h'.brokerProtocol = some ⟨u⟩) := by
  have hnew : Inv W [] ProtocolHandler.new := .start nofun
  obtain ⟨hno, hrun⟩ := hnew.run (P := P) is
  refine ⟨hno, fun past h hpast => ?_⟩
  obtain ⟨hframes, hinv, -⟩ := hrun past h hpast
  rw [List.nil_append] at hinv
  refine ⟨hframes, fun hidle i reply h' sv hstep => ?_, fun hbroker => ?_⟩
  · have hreplies : Replies P W past h i := hinv.replies i
    exact hreplies.idle reply h' sv hstep hidle
  · cases hinv with
    | start => cases hbroker
    | auth => cases hbroker
    | @broker u hauth =>
      refine ⟨u, rfl, hauth, fun more past' h' hmore => ?_⟩
      obtain ⟨-, hrest⟩ := (Inv.broker hauth).run (P := P) more
      obtain ⟨-, -, hstays⟩ := hrest past' h' hmore
      rw [hstays rfl]
      exact ⟨rfl, rfl⟩

end ProtocolHandler

end Lofire
