import Lofire.Broker.RemoteBroker
import Lofire.Node.Frames

/-!
# One attempt to authenticate

The handler alone lets a client go on after an error. `connection_loop` does not: it leaves the loop
when the handler reports an error, or comes with an error code. So a client has one attempt for each
nonce: its first frame chooses the protocol, the second one authenticates it, and no other frame is
handled unless both do (`one_attempt`).
-/

namespace Lofire

open Lib

variable {P : Primitives} {W : Wire}

namespace AuthProtocolHandler

/-- The code of an error is no success. -/
theorem code_pos {a a' : AuthProtocolHandler} {frame : Bytes} {res : Except ProtocolError Bytes}
    {code : UInt16} (h : handleIncoming W a frame = .ok ((res, some code), a')) : 0 < code := by
  unfold handleIncoming at h
  cases hrun : (processState W frame).run.run a with
  | error e =>
    rw [hrun] at h
    cases h
  | ok out =>
    obtain ⟨e | reply, a₁⟩ := out
    · rw [hrun] at h
      cases h
      exact UInt16.pos_iff_ne_zero.mpr (ProtocolError.toU16_ne_zero e)
    · rw [hrun] at h
      cases h

/-- The frame that the handler waits for authenticates a user, or nobody. -/
theorem handleIncoming_waiting (n frame : Bytes) :
    (∃ res u machine, Authenticates W n u frame ∧
      handleIncoming W ⟨.serverHelloSent, some n, none⟩ frame =
        .ok ((res, none), ⟨machine, some n, some u⟩)) ∨
    (∀ u, ¬ Authenticates W n u frame) ∧ ∃ res code machine, 0 < code ∧
      handleIncoming W ⟨.serverHelloSent, some n, none⟩ frame =
        .ok ((res, some code), ⟨machine, some n, none⟩) := by
  rcases handleIncoming_cases (W := W) .serverHelloSent n frame with
    ⟨res, code, machine, hrun⟩ | ⟨res, u, machine, hauth, hrun⟩
  · refine .inr ⟨?_, res, code, machine, code_pos hrun, hrun⟩
    rintro u ⟨m, hm, rfl, hnonce, hverify⟩
    have hstate : (processState W frame).run.run ⟨.serverHelloSent, some n, none⟩ =
        .ok (.ok [], ⟨.authResultOk, some n, some m.user⟩) := by
      rw [processState_waiting, hm]
      dsimp only
      rw [show W.verify (W.clientAuthContent.toVec m.content) m.sig m.user = .ok () from hverify]
      dsimp only
      rw [matchNonce_eq, if_pos (show m.nonce = n from hnonce)]
    unfold handleIncoming at hrun
    rw [hstate] at hrun
    cases hrun
  · exact .inl ⟨res, u, machine, hauth, hrun⟩

end AuthProtocolHandler

/-- The handler of an authenticated user serves this user for good. -/
theorem ProtocolHandler.handleIncoming_authenticated {user : PubKey} {E : Env}
    {sv sv' : BrokerServer} {frame : Bytes} {reply : Reply} {h : ProtocolHandler}
    (hrun : handleIncoming P W E (authenticated user) sv frame = .ok (reply, h, sv')) :
    h = authenticated user := by
  unfold handleIncoming authenticated at hrun
  dsimp only at hrun
  cases hframe : W.brokerMessage.fromSlice frame with
  | none =>
    rw [hframe] at hrun
    cases hrun
    rfl
  | some message =>
    rw [hframe] at hrun
    dsimp only [unwrap] at hrun
    cases hserve : (BrokerProtocolHandler.handleIncoming P W E ⟨user⟩ message).run sv with
    | error e =>
      simp only [bind, Except.bind, hserve] at hrun
      cases hrun
    | ok res =>
      simp only [bind, Except.bind, hserve, pure, Except.pure] at hrun
      cases hrun
      rfl

namespace ConnectionLoop

variable {c c' : ConnectionLoop}

/-- The loop has been left, or is about to be. -/
inductive Lost : LoopState → Prop
  | replying {frame : Bytes} {code : UInt16} (hcode : 0 < code) :
      Lost (.replying frame (some ⟨[], code⟩))
  | awaiting {code : UInt16} (hcode : 0 < code) : Lost (.awaiting [] code)
  | leaving : Lost .leaving
  | ended : Lost .ended

theorem Lost.not_receiving {loop : LoopState} (h : Lost loop) : loop ≠ .receiving := by
  cases h <;> exact nofun

theorem Lost.goOn (h : Lost c.loop) (hs : c.goOn = some c') : Lost c'.loop := by
  cases goesOn hs with
  | @reply frame later hloop _ =>
    rw [hloop] at h
    cases h with
    | replying hcode => exact .awaiting hcode
  | failed | errorCode => exact .leaving
  | enqueue hloop _ =>
    rw [hloop] at h
    cases h
  | dropped hloop _ =>
    rw [hloop] at h
    cases h
  | next hloop hcode =>
    rw [hloop] at h
    cases h with
    | awaiting hpos => exact absurd hcode (UInt16.pos_iff_ne_zero.mp hpos)
  | close => exact .ended

/-- The handler and the loop after the frames `past`. -/
inductive Stage (W : Wire) : List Exchange → ProtocolHandler → LoopState → Prop
  | fresh {loop : LoopState} : Stage W [] .new loop
  | refused {x : Exchange} {loop : LoopState} (hlost : Lost loop) : Stage W [x] .new loop
  | hello {x : Exchange} {loop : LoopState} (h : W.startProtocol.fromSlice x.1.frame = some .auth) :
      Stage W [x] ⟨.auth, some ⟨.serverHelloSent, some x.1.env.randomBuf.toList, none⟩, none⟩ loop
  | failed {x y : Exchange} {auth : AuthProtocolHandler} {loop : LoopState}
      (h : ∀ u, ¬ Authenticates W x.1.env.randomBuf.toList u y.1.frame) (hlost : Lost loop) :
      Stage W [x, y] ⟨.auth, some auth, none⟩ loop
  | user {x y : Exchange} {requests : List Exchange} {u : PubKey} {loop : LoopState}
      (h : W.startProtocol.fromSlice x.1.frame = some .auth)
      (hauth : Authenticates W x.1.env.randomBuf.toList u y.1.frame) :
      Stage W (x :: y :: requests) (.authenticated u) loop

variable {past : List Exchange}

/-- A step of the loop that handles no frame. -/
theorem Stage.goOn (h : Stage W past c.handler c.loop) (hs : c.goOn = some c') :
    Stage W past c'.handler c'.loop := by
  have hhandler : c'.handler = c.handler := by
    cases goesOn hs <;> rfl
  rw [hhandler]
  generalize hprev : c.loop = loop, c.handler = handler at h
  cases h with
  | fresh => exact .fresh
  | refused hlost => exact .refused (Lost.goOn (hprev ▸ hlost) hs)
  | hello h => exact .hello h
  | failed h hlost => exact .failed h (Lost.goOn (hprev ▸ hlost) hs)
  | user h hauth => exact .user h hauth

theorem Stage.leave (h : Stage W past c.handler c.loop) (loop : LoopState) (hloop : Lost loop) :
    Stage W past c.handler loop := by
  generalize c.loop = loop', c.handler = handler at h
  cases h with
  | fresh => exact .fresh
  | refused _ => exact .refused hloop
  | hello h => exact .hello h
  | failed h _ => exact .failed h hloop
  | user h hauth => exact .user h hauth

/-- The next frame is handled. -/
theorem Stage.handle (h : Stage W past c.handler c.loop) (hloop : c.loop = .receiving) {E : Env}
    {sv sv' : BrokerServer} {data : Bytes} (hs : c.handle P W E sv data = some (c', sv')) :
    ∃ reply, c.handler.handleIncoming P W E sv data = .ok (reply, c'.handler, sv') ∧
      Stage W (past ++ [(⟨data, E, sv⟩, reply)]) c'.handler c'.loop := by
  obtain ⟨reply, handler, hrun, hc'⟩ := handle_eq_some hs
  have hhandler : c'.handler = handler := by
    obtain ⟨e, -, rfl⟩ | ⟨r, -, rfl⟩ := hc' <;> rfl
  have hlost (later : Option Later) (hlater : Except.isOk reply.frame → reply.later = later)
      (hloop : ∀ r, Lost (.replying r later)) : Lost c'.loop := by
    obtain ⟨e, -, rfl⟩ | ⟨r, hr, rfl⟩ := hc'
    · exact .leaving
    · rw [hlater (by rw [hr]; rfl)]
      exact hloop r
  rw [hhandler]
  refine ⟨reply, hrun, ?_⟩
  generalize hprev : c.loop = loop, hfrom : c.handler = before at h
  rw [hfrom] at hrun
  rw [hprev] at hloop
  cases h with
  | fresh =>
    rcases hframe : W.startProtocol.fromSlice data with _ | _ | _
    · simp only [ProtocolHandler.handleIncoming, ProtocolHandler.new, hframe, Except.ok.injEq,
        Prod.mk.injEq] at hrun
      obtain ⟨rfl, rfl, -⟩ := hrun
      refine .refused ?_
      obtain ⟨e, -, rfl⟩ | ⟨r, hr, -⟩ := hc'
      · exact .leaving
      · cases hr
    · simp only [ProtocolHandler.handleIncoming, ProtocolHandler.new, hframe,
        AuthProtocolHandler.handleInit_eq, bind, Except.bind, pure, Except.pure, Except.ok.injEq,
        Prod.mk.injEq] at hrun
      obtain ⟨-, rfl, -⟩ := hrun
      exact .hello hframe
    · simp only [ProtocolHandler.handleIncoming, ProtocolHandler.new, hframe] at hrun
      cases hrun
  | refused hlost => exact absurd hloop hlost.not_receiving
  | @hello x _ h =>
    rcases AuthProtocolHandler.handleIncoming_waiting (W := W) x.1.env.randomBuf.toList data with
      ⟨res, u, machine, hauth, hwaiting⟩ | ⟨hno, res, code, machine, hcode, hwaiting⟩
    · simp only [ProtocolHandler.handleIncoming, ProtocolHandler.unwrap, hwaiting, bind,
        Except.bind, pure, Except.pure, AuthProtocolHandler.getUser, Except.ok.injEq,
        Prod.mk.injEq] at hrun
      obtain ⟨-, rfl, -⟩ := hrun
      exact .user h hauth
    · simp only [ProtocolHandler.handleIncoming, ProtocolHandler.unwrap, hwaiting, bind,
        Except.bind, pure, Except.pure, Except.ok.injEq, Prod.mk.injEq] at hrun
      obtain ⟨rfl, rfl, -⟩ := hrun
      exact .failed hno (hlost _ (fun _ => rfl) fun _ => .replying hcode)
  | failed h hlost => exact absurd hloop hlost.not_receiving
  | user h hauth =>
    rw [ProtocolHandler.handleIncoming_authenticated hrun]
    exact .user h hauth

theorem Stage.run {as : List Action} (h : Stage W past c.handler c.loop)
    (hrun : c.run P W as = some c') :
    ∃ past', c.handler.run P W (as.filterMap Action.incoming) = .ok (past', c'.handler) ∧
      Stage W (past ++ past') c'.handler c'.loop := by
  induction as generalizing c past with
  | nil =>
    cases hrun
    exact ⟨[], rfl, by simpa using h⟩
  | cons a as ih =>
    obtain ⟨c₁, hs, hrest⟩ := Steps.run_cons.mp hrun
    -- a step that handles no frame
    have hidle (ha : a.incoming = none) (hsame : c₁.handler = c.handler)
        (hstage : Stage W past c₁.handler c₁.loop) : ∃ past',
        c.handler.run P W ((a :: as).filterMap Action.incoming) = .ok (past', c'.handler) ∧
          Stage W (past ++ past') c'.handler c'.loop := by
      rw [List.filterMap_cons_none ha, ← hsame]
      exact ih hstage hrest
    cases a with
    | receive msg env broker =>
      obtain ⟨⟨c₂, sv⟩, hreceive, rfl⟩ := Option.map_eq_some_iff.mp hs
      obtain ⟨hloop, ⟨data, rfl, hhandle⟩ | ⟨rfl, rfl, -⟩ | ⟨rfl, rfl, -⟩⟩ :=
        receive_eq_some hreceive
      · obtain ⟨reply, hincoming, hstage⟩ := h.handle hloop hhandle
        obtain ⟨past', hpast', hstage'⟩ := ih hstage hrest
        refine ⟨(⟨data, env, broker⟩, reply) :: past', ?_, by simpa using hstage'⟩
        show ProtocolHandler.run P W c.handler (⟨data, env, broker⟩ :: _) = _
        simp only [ProtocolHandler.run, hincoming, bind, Except.bind, hpast', pure, Except.pure]
      · exact hidle rfl rfl (h.leave _ .leaving)
      · exact hidle rfl rfl h
    | hangUp =>
      obtain ⟨-, rfl⟩ := hangUp_eq_some hs
      exact hidle rfl rfl (h.leave _ .leaving)
    | loop => exact hidle rfl (by cases goesOn hs <;> rfl) (h.goOn hs)
    | task =>
      refine hidle rfl (by cases taskGoesOn hs <;> rfl) ?_
      cases taskGoesOn hs <;> exact h
    | fail =>
      cases hs
      exact hidle rfl rfl h

/-- A client has one attempt to authenticate. In every run of a connection, however its loop, its
task and the failures of the socket interleave, the handler serves requests only if the first frame
has chosen the protocol and the second one has authenticated the user for the nonce of the hello;
otherwise no more than these two frames are handled. -/
theorem one_attempt {as : List Action} (hrun : new.run P W as = some c) :
    ∃ past, ProtocolHandler.new.run P W (as.filterMap Action.incoming) = .ok (past, c.handler) ∧
      (c.handler.protocol = .broker → ∃ hello auth requests u, past = hello :: auth :: requests ∧
        W.startProtocol.fromSlice hello.1.frame = some .auth ∧
        Authenticates W hello.1.env.randomBuf.toList u auth.1.frame ∧
        c.handler = .authenticated u) ∧
      (c.handler.protocol ≠ .broker → past.length ≤ 2 ∧ ∀ hello auth, past = [hello, auth] →
        (∀ u, ¬ Authenticates W hello.1.env.randomBuf.toList u auth.1.frame) ∧
          ∀ msg E sv, c.receive P W E sv msg = none) := by
  obtain ⟨past, hpast, hstage⟩ := Stage.run (c := new) (@Stage.fresh W .receiving) hrun
  rw [List.nil_append] at hstage
  refine ⟨past, hpast, fun hbroker => ?_, fun hnot => ?_⟩
  · generalize hloop : c.loop = loop, hhandler : c.handler = handler at hstage hbroker ⊢
    cases hstage with
    | @user x y requests u _ h hauth => exact ⟨x, y, requests, u, rfl, h, hauth, rfl⟩
    | _ => cases hbroker
  · have hreceive (hlost : Lost c.loop) (msg : Message) (E : Env) (sv : BrokerServer) :
        c.receive P W E sv msg = none := by
      unfold receive
      split
      · exact absurd ‹c.loop = .receiving› hlost.not_receiving
      · rfl
    generalize hloop : c.loop = loop, hhandler : c.handler = handler at hstage hnot hreceive
    cases hstage with
    | fresh | refused | hello =>
      refine ⟨by simp, fun hello auth heq => ?_⟩
      cases heq
    | @failed x y _ _ h hlost =>
      refine ⟨by simp, fun hello auth heq => ?_⟩
      cases heq
      exact ⟨h, hreceive hlost⟩
    | user => exact absurd rfl hnot

open TwoBlocks in
/-- The client signs another nonce, and its request is not handled. -/
theorem one_attempt_otherNonce : ∃ c past, new.run TwoBlocks.primitives wire
    [.receive (.binary (wire.startProtocol.toVec .auth)) env broker, .loop,
      .receive (.binary (wire.clientAuth.toVec ⟨⟨user, client, []⟩, clientAuth.sig⟩)) env broker,
      .loop, .loop, .loop] = some c ∧ past.length ≤ 2 ∧
      (∀ hello auth : Exchange, past = [hello, auth] →
        (∀ u, ¬ Authenticates wire hello.1.env.randomBuf.toList u auth.1.frame) ∧
          ∀ msg E sv, c.receive TwoBlocks.primitives wire E sv msg = none) ∧
      c.loop = .ended := by
  have hended : (new.run TwoBlocks.primitives wire
      [.receive (.binary (wire.startProtocol.toVec .auth)) env broker, .loop,
        .receive (.binary (wire.clientAuth.toVec ⟨⟨user, client, []⟩, clientAuth.sig⟩)) env broker,
        .loop, .loop, .loop]).map (fun c => (c.loop, c.handler.protocol)) =
      some (.ended, .auth) := by decide +kernel
  obtain ⟨c, hrun, hc⟩ := Option.map_eq_some_iff.mp hended
  obtain ⟨hloop, hprotocol⟩ := Prod.mk.inj hc
  obtain ⟨past, -, -, hnot⟩ := one_attempt hrun
  obtain ⟨hlength, hattempt⟩ := hnot (by rw [hprotocol]; decide)
  exact ⟨c, past, hrun, hlength, hattempt, hloop⟩

end ConnectionLoop

end Lofire
