import Lofire.Broker.RemoteBroker
import Lofire.Net.MessageCodecs

/-!
# The outcomes of requests to a remote broker

In every run of a client and its remote broker in which the callers keep their streams to the end, a
caller sees what it would see of a broker in the same process: the same result or error, or the same
blocks and then the end of the stream. The client alone can bring every request that was served to
its end.
-/

namespace Lofire

open Lib

namespace Remote

variable {abandons : Prop} {s s' : Remote}

theorem internal_replies {a : Internal} (hs : s.internal a = some s') : s'.replies = s.replies := by
  cases a with
  | read id =>
    obtain ⟨-, m, messages, -, rfl⟩ := internal_read hs
    rfl
  | call id a =>
    obtain ⟨c, -, c', -, rfl⟩ := internal_call hs
    rfl
  | stream id a =>
    obtain ⟨c, -, c', -, rfl⟩ := internal_stream hs
    rfl

theorem isSome_update {β : Type} {f : UInt64 → Option β} {id : UInt64} {b : β} (h : f id = some b)
    (b' : β) (id' : UInt64) : (Function.update f id (some b') id').isSome = (f id').isSome := by
  by_cases hid : id' = id
  · subst hid
    rw [Function.update_self, h]
    rfl
  · rw [Function.update_of_ne hid]

/-- The reader loop hands a message to an actor that is there. -/
theorem Inv.readMessage (h : Inv abandons s) {id : UInt64} {m : BrokerMessage}
    {messages : List BrokerMessage} (hincoming : s.incoming id = m :: messages) :
    (∃ c c', s.client.calls id = some c ∧ s.client.readMessage m = s.client.setCall id c') ∨
      ∃ c c', s.client.streamCalls id = some c ∧ s.client.readMessage m =
      s.client.setStreamCall id c' := by
  have hm : m.RespondsTo id := h.messages id m (by rw [hincoming]; exact List.mem_cons_self ..)
  have hat := h.at_id id
  rw [hincoming] at hat
  generalize hcalls : s.client.calls id = call, hstreams : s.client.streamCalls id = stream,
    s.replies id = replies at hat
  cases hat with
  | call hcall =>
    obtain ⟨hentry, haddr, actor, hsend, -⟩ := hcall.read
    exact .inl ⟨_, _, rfl, readMessage_call hm hcalls hentry haddr hsend⟩
  | stream hstream =>
    obtain ⟨hentry, haddr, actor, hsend, -⟩ := hstream.read
    exact .inr ⟨_, _, rfl, readMessage_stream hm hcalls hstreams hentry haddr hsend⟩
  | abandoned ha hstream =>
    obtain ⟨hentry, haddr, actor, hsend, -⟩ := hstream.read
    exact .inr ⟨_, _, rfl, readMessage_stream hm hcalls hstreams hentry haddr hsend⟩

/-- What the client does by itself changes the calls, and adds none. -/
theorem Inv.internal_isSome (h : Inv abandons s) {a : Internal} (hs : s.internal a = some s')
    (id : UInt64) : (s'.client.calls id).isSome = (s.client.calls id).isSome ∧
      (s'.client.streamCalls id).isSome = (s.client.streamCalls id).isSome := by
  cases a with
  | read id' =>
    obtain ⟨-, m, messages, hincoming, rfl⟩ := internal_read hs
    obtain ⟨c, c', hc, hread⟩ | ⟨c, c', hc, hread⟩ := h.readMessage hincoming
    · rw [hread]
      exact ⟨isSome_update hc c' id, rfl⟩
    · rw [hread]
      exact ⟨rfl, isSome_update hc c' id⟩
  | call id' a =>
    obtain ⟨c, hc, c', -, rfl⟩ := internal_call hs
    exact ⟨isSome_update hc c' id, rfl⟩
  | stream id' a =>
    obtain ⟨c, hc, c', -, rfl⟩ := internal_stream hs
    exact ⟨rfl, isSome_update hc c' id⟩

end Remote

/-! ## Outcomes of calls -/

namespace Call

variable {incoming : List BrokerMessage} {c : Call}

theorem Inv.waiting_of_unanswered (h : c.Inv none incoming) : c.state = .waiting := by
  cases h with
  | unanswered => rfl

theorem Inv.result {m : BrokerMessage} {res : Except ProtocolError Unit}
    (hm : m.toResult = some res)
    (h : c.Inv (some [m]) incoming) : c.state = .waiting ∨ c.state = .returned res := by
  cases h with
  | waiting => exact .inl rfl
  | stopping => exact .inl rfl
  | stopped => exact .inl rfl
  | returned hm' => exact .inr (congrArg CallState.returned (Option.some.inj (hm'.symm.trans hm)))

end Call

namespace StreamCall

variable {incoming : List BrokerMessage} {c : StreamCall}

theorem Inv.waiting_of_unanswered (h : c.Inv none incoming) : c.state = .waiting := by
  cases h with
  | unanswered => rfl

/-- The caller gets the error of the stream, or its blocks in order and then the end. -/
theorem Inv.result {M : StreamMessages} {blocks : List Block}
    (h : c.Inv (some (M.messages blocks)) incoming) :
    c.state = .waiting ∨ (∃ e, M.error = some e ∧ c.state = .failed e) ∨
      M.error = none ∧ c.state = .opened ∧ c.received <+: blocks ∧
        (c.ended = true → c.received = blocks) := by
  generalize hreplies : some (M.messages blocks) = replies at h
  cases h with
  | unanswered => cases hreplies
  | going herror hqueue hbefore hstate =>
    obtain ⟨rfl, hM⟩ := StreamMessages.messages_inj (Option.some.inj hreplies)
    rw [hM]
    obtain ⟨hwaiting, -⟩ | ⟨hopened, hne⟩ := hstate
    · exact .inl hwaiting
    · refine .inr (.inr ⟨herror.resolve_right (by simp [hne]), hopened, ?_, fun h => by cases h⟩)
      rw [← hbefore, List.append_assoc]
      exact List.prefix_append ..
  | finished herror running entry addr held ended hstate hended hheld =>
    obtain ⟨rfl, hM⟩ := StreamMessages.messages_inj (Option.some.inj hreplies)
    rw [hM]
    obtain ⟨hwaiting, -⟩ | ⟨e, he, hfailed⟩ | ⟨he, hopened⟩ := hstate
    · exact .inl hwaiting
    · exact .inr (.inl ⟨e, he, hfailed⟩)
    · refine .inr (.inr ⟨he, hopened, List.prefix_append .., fun h => ?_⟩)
      rw [(hended h).1, List.append_nil]

end StreamCall

/-! ## Calls come to their end -/

/-- What an actor has to do: a message may bring a block or the end of the actor. -/
def ActorEvent.work : ActorEvent BrokerMessage → Nat
  | .exec _ => 3
  | .stop => 1

def mailboxWork (mailbox : List (ActorEvent BrokerMessage)) : Nat :=
  (mailbox.map ActorEvent.work).sum

theorem mailboxWork_exec (m : BrokerMessage) (mailbox : List (ActorEvent BrokerMessage)) :
    mailboxWork (.exec m :: mailbox) = 3 + mailboxWork mailbox := by
  simp [mailboxWork, ActorEvent.work]

theorem mailboxWork_append (mailbox mailbox' : List (ActorEvent BrokerMessage)) :
    mailboxWork (mailbox ++ mailbox') = mailboxWork mailbox + mailboxWork mailbox' := by
  simp [mailboxWork]

namespace Call

def isFinished (c : Call) : Bool :=
  match c.state with
  | .waiting => false
  | _ => true

/-- A bound on the steps until the call returns. -/
def work (c : Call) : Nat :=
  mailboxWork c.actor.mailbox + c.actor.running.toNat + c.addr.toNat + (!c.isFinished).toNat

theorem work_send {c : Call} {m : BrokerMessage} {actor : Actor BrokerMessage BrokerMessageActor}
    (h : c.actor.send m = some actor) : { c with actor }.work = c.work + 3 := by
  obtain ⟨-, h⟩ := Option.ite_none_right_eq_some.mp h
  cases h
  have hmail := mailboxWork_append c.actor.mailbox [.exec m]
  have hexec : mailboxWork [.exec m] = 3 := rfl
  simp only [work, isFinished]
  omega

/-- A call with its reply in the mailbox returns. -/
theorem Inv.progress {c : Call} {messages : List BrokerMessage} (h : c.Inv (some messages) []) :
    c.isFinished = true ∨ ∃ a c', c.step a = some c' ∧ c'.work < c.work := by
  cases h with
  | waiting hm h =>
    rw [List.append_nil] at h
    subst h
    exact .inr ⟨.handle, _, rfl, by simp [work, mailboxWork, ActorEvent.work, isFinished]⟩
  | stopping hm =>
    exact .inr
      ⟨.handle, _, rfl, by simp [work, mailboxWork, ActorEvent.work, Actor.exit, isFinished]⟩
  | stopped hm addr =>
    cases addr with
    | true => exact .inr ⟨.stopped, _, rfl, by simp [work, isFinished]⟩
    | false => exact .inr ⟨.reply, _, rfl, by simp [work, isFinished, hm]⟩
  | returned hm => exact .inl rfl

end Call

namespace StreamCall

def isFinished (c : StreamCall) : Bool :=
  match c.state with
  | .waiting => false
  | .failed _ => true
  | .opened => c.ended

/-- A bound on the steps until the caller has an error or the end of the stream. -/
def work (c : StreamCall) : Nat :=
  mailboxWork c.actor.mailbox + c.actor.state.blocks.length + (c.state == .waiting).toNat +
    (!c.ended).toNat

theorem work_send {c : StreamCall} {m : BrokerMessage}
    {actor : Actor BrokerMessage BrokerMessageStreamActor} (h : c.actor.send m = some actor) :
    { c with actor }.work = c.work + 3 := by
  obtain ⟨-, h⟩ := Option.ite_none_right_eq_some.mp h
  cases h
  have hmail := mailboxWork_append c.actor.mailbox [.exec m]
  have hexec : mailboxWork [.exec m] = 3 := rfl
  simp only [work]
  omega

/-- A stream with its reply in the mailbox comes to its end. -/
theorem Inv.progress {c : StreamCall} {messages : List BrokerMessage}
    (h : c.Inv (some messages) []) :
    c.isFinished = true ∨ ∃ a c', c.step a = some c' ∧ a ≠ .drop ∧ c'.work < c.work := by
  cases h with
  | @going M before after received pending queue _ state herror hqueue hbefore hstate =>
    -- the next message is handled
    right
    rw [List.append_nil] at hqueue
    subst hqueue
    cases after with
    | nil =>
      refine ⟨.handle, _, Option.map_eq_some_iff.mpr ⟨_, Actor.next_exec rfl rfl
        (BrokerMessageStreamActor.handle_last M.toBlock_last), rfl⟩, nofun, ?_⟩
      simp [work, mailboxWork, ActorEvent.work]
    | cons b after =>
      have hrest : (after.map M.block).append [M.last] = M.messages after := rfl
      refine ⟨.handle, _, Option.map_eq_some_iff.mpr ⟨_, Actor.next_exec rfl rfl
        (BrokerMessageStreamActor.handle_block (M.toBlock_block b) rfl), rfl⟩, nofun, ?_⟩
      simp only [work, StreamMessages.messages_cons, List.map_cons, Bool.false_eq_true, if_false,
        List.append_nil, hrest, mailboxWork_exec, List.length_cons,
        List.length_append, List.length_nil]
      omega
  | @finished M received pending state herror running entry addr held ended hstate hended hheld =>
    obtain ⟨rfl, rfl⟩ | ⟨e, he, rfl⟩ | ⟨he, rfl⟩ := hstate
    · -- the caller gets the error or the stream
      right
      cases hM : M.error with
      | none => exact ⟨.error, _, by rfl, nofun, by simp [work]⟩
      | some e => exact ⟨.error, _, by rfl, nofun, by simp [work]⟩
    · exact .inl rfl
    · cases ended with
      | true => exact .inl rfl
      | false =>
        have hheld : held = true := by
          cases held with
          | true => rfl
          | false => cases hheld rfl
        subst hheld
        right
        cases pending with
        | nil => exact ⟨.recv, _, rfl, nofun, by simp [work]⟩
        | cons b pending => exact ⟨.recv, _, rfl, nofun, by simp [work]⟩

end StreamCall

namespace Remote

variable {s s' : Remote} {id : UInt64}

def isFinished (s : Remote) (id : UInt64) : Bool :=
  (s.client.calls id).all Call.isFinished && (s.client.streamCalls id).all StreamCall.isFinished

def work (s : Remote) (id : UInt64) : Nat :=
  4 * (s.incoming id).length + ((s.client.calls id).map Call.work).getD 0 +
    ((s.client.streamCalls id).map StreamCall.work).getD 0

/-- As long as a request that has its reply is not finished, the client can go on with it. -/
theorem Inv.progress (h : Inv False s) (hr : (s.replies id).isSome) : s.isFinished id = true ∨
    ∃ a s', (Action.internal a).id = id ∧ s.keeps (.internal a) = true ∧ s.internal a = some s' ∧
      s'.work id < s.work id := by
  obtain ⟨messages, hmessages⟩ := Option.isSome_iff_exists.mp hr
  have hat := h.at_id id
  rw [hmessages] at hat
  generalize hcalls : s.client.calls id = call, hstreams : s.client.streamCalls id = stream,
    hincoming : s.incoming id = incoming at hat
  cases incoming with
  | cons m rest =>
    have hm : m.RespondsTo id := h.messages id m (by rw [hincoming]; exact List.mem_cons_self ..)
    refine .inr ⟨.read id, { s with
      client := s.client.readMessage m, incoming := Function.update s.incoming id rest },
        rfl, rfl, ?_, ?_⟩
    · simp only [Remote.internal, h.running, hincoming]
    · cases hat with
      | call hcall =>
        obtain ⟨hentry, haddr, actor, hsend, -⟩ := hcall.read
        have hwork := Call.work_send hsend
        simp only [work, readMessage_call hm hcalls hentry haddr hsend,
          BrokerConnectionRemote.setCall,
          Function.update_self, hincoming, hcalls, hstreams, Option.map_some, Option.getD_some,
          List.length_cons]
        omega
      | stream hstream =>
        obtain ⟨hentry, haddr, actor, hsend, -⟩ := hstream.read
        have hwork := StreamCall.work_send hsend
        simp only [work, readMessage_stream hm hcalls hstreams hentry haddr hsend,
          BrokerConnectionRemote.setStreamCall, Function.update_self, hincoming, hcalls, hstreams,
          Option.map_some, Option.getD_some, List.length_cons]
        omega
      | abandoned ha => exact ha.elim
  | nil =>
    cases hat with
    | call hcall =>
      obtain hfinished | ⟨a, c', hstep, hwork⟩ := hcall.progress
      · exact .inl (by simp [isFinished, hcalls, hstreams, hfinished])
      · refine .inr ⟨.call id a, { s with client := s.client.setCall id c' }, rfl, rfl, ?_, ?_⟩
        · simp [Remote.internal, hcalls, hstep]
        · simpa [work, BrokerConnectionRemote.setCall, hcalls, hstreams, hincoming] using hwork
    | stream hstream =>
      obtain hfinished | ⟨a, c', hstep, hdrop, hwork⟩ := hstream.progress
      · exact .inl (by simp [isFinished, hcalls, hstreams, hfinished])
      · refine .inr ⟨.stream id a, { s with client := s.client.setStreamCall id c' },
          rfl, ?_, ?_, ?_⟩
        · cases a with
          | drop => exact absurd rfl hdrop
          | _ => rfl
        · simp [Remote.internal, hstreams, hstep]
        · simpa [work, BrokerConnectionRemote.setStreamCall, hcalls,
            hstreams, hincoming] using hwork
    | abandoned ha => exact ha.elim

end Remote

namespace RemoteBroker

variable {P : Primitives} {W : Wire} {user : PubKey}

/-- The reply to a request is the result of the local call. -/
inductive Answered (P : Primitives) (user : PubKey) (id : UInt64) (overlay : OverlayId)
    (content : BrokerOverlayRequestContent) (sv : BrokerServer) (E : Env) :
    Option (List BrokerMessage) → Prop
  | call {res sv'} (h : content.isCall = true)
      (hserve : sv.serve (BrokerConnectionLocal.processOverlayRequest P E user overlay content) =
        some (res, sv')) :
      Answered P user id overlay content sv E (some ((Reply.overlay overlay res).messages id))
  | stream {res sv'} (h : content.isStream = true)
      (hserve : sv.serve (BrokerConnectionLocal.processOverlayRequestStreamResponse P E overlay
        content) = some (res, sv')) :
      Answered P user id overlay content sv E
      (some ((Reply.stream overlay res).received.messages id))

/-- A request that was made has its call. -/
def HasCall (s : RemoteBroker) (id : UInt64) (content : BrokerOverlayRequestContent) : Prop :=
  content.isCall = true ∧ (s.remote.client.calls id).isSome ∨
    content.isStream = true ∧ (s.remote.client.streamCalls id).isSome

structure Inv (P : Primitives) (W : Wire) (user : PubKey) (s : RemoteBroker) : Prop where
  remote : Remote.Inv False s.remote
  asked : ∀ {id overlay content}, s.asked id = some (overlay, content) → s.HasCall id content
  unasked : ∀ {id}, s.asked id = none → (s.remote.client.calls id).isSome = false ∧
    (s.remote.client.streamCalls id).isSome = false
  requests : ∀ {id frame}, (id, frame) ∈ s.requests → s.served id = none ∧
    ∃ overlay content, s.asked id = some (overlay, content) ∧
      frame = W.brokerMessage.toVec (requestMessage id overlay content)
  nodup : (s.requests.map Prod.fst).Nodup
  unserved : ∀ {id}, s.served id = none → s.remote.replies id = none
  served : ∀ {id sv E}, s.served id = some (sv, E) → ∃ overlay content,
    s.asked id = some (overlay, content) ∧
      Answered P user id overlay content sv E (s.remote.replies id)

theorem inv_new (broker : BrokerServer) : Inv P W user (new broker) where
  remote := Remote.inv_new
  asked h := by cases h
  unasked _ := ⟨rfl, rfl⟩
  requests h := by cases h
  nodup := List.nodup_nil
  unserved _ := rfl
  served h := by cases h

variable {s s' : RemoteBroker}

theorem Inv.request (h : Inv P W user s) {id : UInt64} {overlay : OverlayId}
    {content : BrokerOverlayRequestContent} (hs : s.request W id overlay content = some s') :
    Inv P W user s' := by
  obtain ⟨hkind, hs⟩ := Option.ite_none_right_eq_some.mp hs
  obtain ⟨remote, hremote, hs⟩ := Option.bind_eq_some_iff.mp hs
  cases hs
  have hfresh : s.asked id = none := by
    obtain ⟨hcalls, hstreams, -⟩ := Remote.request_eq_some hremote
    obtain hnone | ⟨⟨overlay', content'⟩, hasked⟩ := Option.eq_none_or_eq_some (s.asked id)
    · exact hnone
    · obtain ⟨-, hcall⟩ | ⟨-, hcall⟩ := h.asked hasked
      · rw [hcalls] at hcall
        cases hcall
      · rw [hstreams] at hcall
        cases hcall
  have hold {id' : UInt64} {x} (hasked : s.asked id' = some x) : id' ≠ id := by
    rintro rfl
    rw [hfresh] at hasked
    cases hasked
  have hunserved : s.served id = none := by
    obtain hnone | ⟨⟨sv, E⟩, hserved⟩ := Option.eq_none_or_eq_some (s.served id)
    · exact hnone
    · obtain ⟨overlay', content', hasked, -⟩ := h.served hserved
      exact absurd rfl (hold hasked)
  have hreplies : remote.replies = s.remote.replies := by
    obtain ⟨-, -, rfl⟩ := Remote.request_eq_some hremote
    rfl
  have hsame : Remote.SameExcept id s.remote remote := Remote.sameExcept_request hremote
  refine ⟨h.remote.request hremote, ?_, ?_, ?_, ?_, ?_, ?_⟩
  · intro id' overlay' content' hasked
    by_cases hid : id' = id
    · subst hid
      cases (Function.update_self ..).symm.trans hasked
      obtain ⟨-, -, rfl⟩ := Remote.request_eq_some hremote
      cases hstream : content.isStream with
      | true => exact .inr ⟨hstream, by simp [BrokerConnectionRemote.setStreamCall]⟩
      | false =>
        refine .inl ⟨hkind.resolve_right (by simp [hstream]), ?_⟩
        simp [BrokerConnectionRemote.setCall]
    · unfold HasCall
      dsimp only
      rw [hsame.calls hid, hsame.streamCalls hid]
      exact h.asked ((Function.update_of_ne hid ..).symm.trans hasked)
  · intro id' hasked
    have hid : id' ≠ id := by
      rintro rfl
      cases (Function.update_self ..).symm.trans hasked
    dsimp only
    rw [hsame.calls hid, hsame.streamCalls hid]
    exact h.unasked ((Function.update_of_ne hid ..).symm.trans hasked)
  · intro id' frame hmem
    dsimp only
    rcases List.mem_append.mp hmem with hmem | hmem
    · obtain ⟨hserved, overlay', content', hasked, hframe⟩ := h.requests hmem
      exact ⟨hserved, overlay', content', (Function.update_of_ne (hold hasked) ..).trans hasked,
        hframe⟩
    · cases List.mem_singleton.mp hmem
      exact ⟨hunserved, overlay, content, Function.update_self .., rfl⟩
  · rw [List.map_append, List.nodup_append]
    refine ⟨h.nodup, List.nodup_singleton _, fun id₁ hid₁ id₂ hid₂ => ?_⟩
    obtain ⟨⟨_, frame⟩, hmem, rfl⟩ := List.mem_map.mp hid₁
    obtain ⟨-, overlay', content', hasked, -⟩ := h.requests hmem
    rw [List.mem_singleton.mp hid₂]
    exact hold hasked
  · intro id' hserved
    dsimp only
    rw [hreplies]
    exact h.unserved hserved
  · intro id' sv E hserved
    obtain ⟨overlay', content', hasked, hanswered⟩ := h.served hserved
    dsimp only
    rw [hreplies]
    exact ⟨overlay', content', (Function.update_of_ne (hold hasked) ..).trans hasked, hanswered⟩

/-- The next request is served. -/
theorem serve_eq_some {E : Env} (hs : s.serve P W user E = some s') :
    ∃ id frame requests reply later h broker, s.requests = (id, frame) :: requests ∧
      ProtocolHandler.handleIncoming P W E (.authenticated user) s.broker frame =
        .ok (⟨.ok reply, later⟩, h, broker) ∧
      s' = { s with
        broker := broker
        requests := requests
        remote := s.remote.enqueue id
          ((reply :: (later.map Later.frames).getD []).map (decodeFrame W))
        served := Function.update s.served id (some (s.broker, E)) } := by
  unfold RemoteBroker.serve at hs
  split at hs
  · cases hs
  · rename_i id frame requests hrequests
    split at hs
    · rename_i reply later h broker hhandle
      cases hs
      exact ⟨id, frame, requests, reply, later, h, broker, hrequests, hhandle, rfl⟩
    · cases hs

/-- The frames of the reply to a request are decoded to the messages of the local result. -/
theorem answered_of_handleIncoming (hW : W.MessageLaws) {id : UInt64} {overlay : OverlayId}
    {content : BrokerOverlayRequestContent}
    (hkind : content.isCall = true ∨ content.isStream = true)
    {sv sv' : BrokerServer} {E : Env} {reply : Bytes} {later : Option Later} {h : ProtocolHandler}
    (hhandle : ProtocolHandler.handleIncoming P W E (.authenticated user) sv
      (W.brokerMessage.toVec (requestMessage id overlay content)) =
      .ok (⟨.ok reply, later⟩, h, sv')) :
    ∃ r : Reply, r.isStream = content.isStream ∧
      (reply :: (later.map Later.frames).getD []).map (decodeFrame W) = r.messages id ∧
      Answered P user id overlay content sv E (some (r.messages id)) := by
  obtain hcall | hstream := hkind
  · rw [handleIncoming_call P E hW user sv id overlay hcall] at hhandle
    obtain ⟨hsame, -⟩ := serve_onWire P E sv user overlay content
    generalize sv.serve (BrokerConnectionLocal.processOverlayRequest P E user
      overlay content.onWire) = out
      at hhandle hsame
    obtain _ | ⟨res, sv₁⟩ := out
    · cases hhandle
    · cases hhandle
      obtain ⟨⟨res', sv₂⟩, hserve, hres⟩ := Option.map_eq_some_iff.mp hsame.symm
      cases hres
      refine ⟨.overlay overlay res, ?_, decodeFrame_call hW res id overlay, .call hcall hserve⟩
      cases content <;> cases hcall <;> rfl
  · rw [handleIncoming_stream P E hW user sv id overlay hstream] at hhandle
    generalize hserve : sv.serve
      (BrokerConnectionLocal.processOverlayRequestStreamResponse P E overlay content) =
      out at hhandle
    obtain _ | ⟨res, sv₁⟩ := out
    · cases hhandle
    · cases hhandle
      refine ⟨(Reply.stream overlay res).received, ?_, decodeFrame_stream hW res id overlay,
        .stream hstream hserve⟩
      rw [hstream]
      cases res <;> rfl

theorem Inv.serve (hW : W.MessageLaws) (h : Inv P W user s) {E : Env}
    (hs : s.serve P W user E = some s') : Inv P W user s' := by
  obtain ⟨id, frame, requests, reply, later, _, broker, hrequests, hhandle, rfl⟩ := serve_eq_some hs
  have hmem {id' frame'} (hm : (id', frame') ∈ requests) : (id', frame') ∈ s.requests := by
    rw [hrequests]
    exact List.mem_cons_of_mem _ hm
  have hnodup := h.nodup
  rw [hrequests, List.map_cons, List.nodup_cons] at hnodup
  have hother {id' frame'} (hm : (id', frame') ∈ requests) : id' ≠ id := by
    rintro rfl
    exact hnodup.1 (List.mem_map.mpr ⟨(id', frame'), hm, rfl⟩)
  obtain ⟨hunserved, overlay, content, hasked, rfl⟩ := h.requests (by
    rw [hrequests]
    exact List.mem_cons_self ..)
  have hcall := h.asked hasked
  obtain ⟨r, hr, hframes, hanswered⟩ :=
    answered_of_handleIncoming hW (hcall.imp And.left And.left) hhandle
  rw [hframes]
  refine ⟨h.remote.enqueue (h.unserved hunserved) ?_, fun ha => h.asked ha, fun ha => h.unasked ha,
    ?_, hnodup.2, ?_, ?_⟩
  · rw [hr]
    obtain ⟨hcontent, hsome⟩ | ⟨hcontent, hsome⟩ := hcall
    · have hnot : content.isStream = false := by cases content <;> cases hcontent <;> rfl
      rw [hnot]
      exact hsome
    · rw [hcontent]
      exact hsome
  · intro id' frame' hm
    obtain ⟨hserved, hrest⟩ := h.requests (hmem hm)
    exact ⟨(Function.update_of_ne (hother hm) ..).trans hserved, hrest⟩
  · intro id' hserved
    have hid : id' ≠ id := by
      rintro rfl
      cases (Function.update_self ..).symm.trans hserved
    exact (Function.update_of_ne hid ..).trans
      (h.unserved ((Function.update_of_ne hid ..).symm.trans hserved))
  · intro id' sv E' hserved
    by_cases hid : id' = id
    · subst hid
      cases (Function.update_self ..).symm.trans hserved
      refine ⟨overlay, content, hasked, ?_⟩
      simpa only [Remote.enqueue, Function.update_self] using hanswered
    · simp only [Remote.enqueue, Function.update_of_ne hid]
      exact h.served ((Function.update_of_ne hid ..).symm.trans hserved)

theorem Inv.internal (h : Inv P W user s) {a : Remote.Internal} {remote : Remote}
    (hkeeps : s.remote.keeps (.internal a) = true) (hs : s.remote.internal a = some remote) :
    Inv P W user { s with remote } := by
  have hsome := h.remote.internal_isSome hs
  have hreplies := Remote.internal_replies hs
  have hremote : s.remote.step (.internal a) = some remote := hs
  refine ⟨h.remote.step (fun _ => hkeeps) (fun h => h.elim) hremote,
    fun hasked => ?_, fun hasked => ?_,
    h.requests, h.nodup, fun hserved => ?_, fun hserved => ?_⟩
  · unfold HasCall
    rw [(hsome _).1, (hsome _).2]
    exact h.asked hasked
  · rw [(hsome _).1, (hsome _).2]
    exact h.unasked hasked
  · rw [hreplies]
    exact h.unserved hserved
  · rw [hreplies]
    exact h.served hserved

/-- Callers drop their streams only after their ends. -/
def keeps (s : RemoteBroker) : Action → Bool
  | .internal a => s.remote.keeps (.internal a)
  | _ => true

theorem Inv.step (hW : W.MessageLaws) (h : Inv P W user s) {a : Action} (hkeeps : s.keeps a = true)
    (hs : s.step P W user a = some s') : Inv P W user s' := by
  cases a with
  | request id overlay content => exact h.request hs
  | serve E => exact h.serve hW hs
  | internal a =>
    obtain ⟨remote, hremote, rfl⟩ := Option.map_eq_some_iff.mp hs
    exact h.internal hkeeps hremote

/-- The client alone brings a request to its end that has its reply. -/
theorem Inv.finishes (h : Inv P W user s) {id : UInt64} (hr : (s.remote.replies id).isSome) :
    ∃ (as : List Remote.Internal) (s' : RemoteBroker),
    (∀ a ∈ as, (Remote.Action.internal a).id = id) ∧
      s.run P W user (as.map .internal) = some s' ∧ Inv P W user s' ∧ s'.asked = s.asked ∧
      s'.served = s.served ∧ s'.remote.isFinished id = true := by
  generalize hwork : s.remote.work id = n
  induction n using Nat.strong_induction_on generalizing s with
  | _ n ih =>
    obtain hfinished | ⟨a, remote, hid, hkeeps, hstep, hlt⟩ := h.remote.progress hr
    · exact ⟨[], s, by simp, rfl, h, rfl, rfl, hfinished⟩
    · have hr' : (remote.replies id).isSome := by
        rw [Remote.internal_replies hstep]
        exact hr
      obtain ⟨as, s', has, hrun, hinv, hasked, hserved, hfinished⟩ :=
        ih _ (hwork ▸ hlt) (h.internal hkeeps hstep) hr' rfl
      refine ⟨a :: as, s', ?_, ?_, hinv, hasked, hserved, hfinished⟩
      · intro b hb
        rcases List.mem_cons.mp hb with rfl | hb
        · exact hid
        · exact has b hb
      · refine Steps.run_cons.mpr ⟨{ s with remote }, ?_, hrun⟩
        exact Option.map_eq_some_iff.mpr ⟨remote, hstep, rfl⟩

/-! ## The same outcome -/

/-- What the caller of a request sees, compared with the local call in the state of the broker and
the environment in which the request was served. -/
inductive SameOutcome (P : Primitives) (user : PubKey) (s : RemoteBroker) (id : UInt64)
    (overlay : OverlayId) : BrokerOverlayRequestContent → Prop
  /-- The request was not served. -/
  | unserved {content} (hserved : s.served id = none)
      (hcall : ∀ c, s.remote.client.calls id = some c → c.state = .waiting)
      (hstream : ∀ c, s.remote.client.streamCalls id = some c → c.state = .waiting) :
      SameOutcome P user s id overlay content
  /-- The call returns the same result. -/
  | call {content sv E res sv' c} (hserved : s.served id = some (sv, E))
      (hlocal : sv.serve (BrokerConnectionLocal.processOverlayRequest P E user overlay content) =
        some (res, sv'))
      (hcall : s.remote.client.calls id = some c)
      (hres : c.state = .waiting ∨ c.state = .returned res) :
      SameOutcome P user s id overlay content
  /-- The call returns the same error. -/
  | error {content sv E e sv' c} (hserved : s.served id = some (sv, E))
      (hlocal : sv.serve (BrokerConnectionLocal.processOverlayRequestStreamResponse P E overlay
        content) = some (.error e, sv'))
      (hcall : s.remote.client.streamCalls id = some c)
      (hres : c.state = .waiting ∨ c.state = .failed e) : SameOutcome P user s id overlay content
  /-- The caller receives the same blocks in the same order, and the end after the last. -/
  | stream {content sv E blocks sv' c} (hserved : s.served id = some (sv, E))
      (hlocal : sv.serve (BrokerConnectionLocal.processOverlayRequestStreamResponse P E overlay
        content) = some (.ok blocks, sv'))
      (hcall : s.remote.client.streamCalls id = some c)
      (hres : c.state = .waiting ∨ c.state = .opened ∧
        c.received.map (Block.toVec P) <+: blocks.map (Block.toVec P) ∧
        (c.ended = true → c.received.map (Block.toVec P) = blocks.map (Block.toVec P))) :
      SameOutcome P user s id overlay content

theorem Inv.sameOutcome (h : Inv P W user s) {id : UInt64} {overlay : OverlayId}
    {content : BrokerOverlayRequestContent} (hasked : s.asked id = some (overlay, content)) :
    SameOutcome P user s id overlay content := by
  have hat := h.remote.at_id id
  have hkind := h.asked hasked
  obtain hunserved | ⟨⟨sv, E⟩, hserved⟩ := Option.eq_none_or_eq_some (s.served id)
  · rw [h.unserved hunserved] at hat
    refine .unserved hunserved (fun c hc => ?_) (fun c hc => ?_)
    · rw [hc] at hat
      generalize s.remote.client.streamCalls id = stream, s.remote.incoming id = incoming at hat
      cases hat with
      | call hcall => exact hcall.waiting_of_unanswered
    · rw [hc] at hat
      generalize s.remote.client.calls id = call, s.remote.incoming id = incoming at hat
      cases hat with
      | stream hstream => exact hstream.waiting_of_unanswered
      | abandoned ha => exact ha.elim
  · obtain ⟨overlay', content', hasked', hanswered⟩ := h.served hserved
    cases hasked.symm.trans hasked'
    generalize s.remote.replies id = replies at hat hanswered
    cases hanswered with
    | @call res sv' hcontent hlocal =>
      have hsome : (s.remote.client.calls id).isSome := by
        obtain ⟨-, hsome⟩ | ⟨hstream, -⟩ := hkind
        · exact hsome
        · cases content <;> cases hcontent <;> cases hstream
      obtain ⟨c, hc⟩ := Option.isSome_iff_exists.mp hsome
      rw [hc] at hat
      generalize s.remote.client.streamCalls id = stream, s.remote.incoming id = incoming at hat
      cases hat with
      | call hcall =>
        exact .call hserved hlocal hc
          (hcall.result (BrokerProtocolHandler.toResult_overlayReply id overlay res))
    | @stream res sv' hcontent hlocal =>
      have hsome : (s.remote.client.streamCalls id).isSome := by
        obtain ⟨hcall, -⟩ | ⟨-, hsome⟩ := hkind
        · cases content <;> cases hcontent <;> cases hcall
        · exact hsome
      obtain ⟨c, hc⟩ := Option.isSome_iff_exists.mp hsome
      rw [hc] at hat
      generalize s.remote.client.calls id = call, s.remote.incoming id = incoming at hat
      cases hat with
      | stream hstream =>
        cases res with
        | error e =>
          have he : e.isStream = false :=
            (plain_processOverlayRequestStreamResponse overlay content).isStream_eq hlocal
          have herror : (Reply.streamMessages id overlay (.error e)).error = some e := by
            simp [Reply.streamMessages, he]
          rw [show (Reply.stream overlay (.error e)).received = .stream overlay (.error e) from rfl,
            Reply.messages_stream] at hstream
          refine .error hserved hlocal hc ?_
          obtain hwaiting | ⟨e', he', hfailed⟩ | ⟨hnone, -⟩ := hstream.result
          · exact .inl hwaiting
          · cases herror.symm.trans he'
            exact .inr hfailed
          · cases herror.symm.trans hnone
        | ok blocks =>
          have hser :
              (blocks.map Block.onWire).map (Block.toVec P) = blocks.map (Block.toVec P) := by
            simp only [List.map_map, Function.comp_def, Block.toVec_onWire]
          rw [show (Reply.stream overlay (.ok blocks)).received =
            .stream overlay (.ok (blocks.map Block.onWire)) from rfl,
            Reply.messages_stream] at hstream
          refine .stream hserved hlocal hc ?_
          obtain hwaiting | ⟨e, he, -⟩ | ⟨-, hopened, hreceived, hended⟩ := hstream.result
          · exact .inl hwaiting
          · cases he
          · refine .inr ⟨hopened, ?_, fun h => ?_⟩
            · rw [← hser]
              exact hreceived.map (Block.toVec P)
            · rw [← hser, hended h]
              rfl
      | abandoned ha => exact ha.elim

/-- The state of the broker after the local call, if it returns. -/
def localAfter (P : Primitives) (E : Env) (user : PubKey) (overlay : OverlayId)
    (content : BrokerOverlayRequestContent) (sv : BrokerServer) : Option BrokerServer :=
  if content.isStream then
    (sv.serve (BrokerConnectionLocal.processOverlayRequestStreamResponse P E overlay content)).map
      Prod.snd
  else
    (sv.serve (BrokerConnectionLocal.processOverlayRequest P E user overlay content)).map Prod.snd

/-- The broker serves the next request when the local call returns, and is then in the same
state. -/
theorem Inv.serve_after (hW : W.MessageLaws) (h : Inv P W user s) {id : UInt64} {frame : Bytes}
    {requests : List (UInt64 × Bytes)} (hrequests : s.requests = (id, frame) :: requests) :
    ∃ overlay content, s.asked id = some (overlay, content) ∧ ∀ E,
      (s.serve P W user E).isSome = (localAfter P E user overlay content s.broker).isSome ∧
      (content.Valid P →
        (s.serve P W user E).map broker = localAfter P E user overlay content s.broker) := by
  obtain ⟨-, overlay, content, hasked, rfl⟩ := h.requests (by
    rw [hrequests]
    exact List.mem_cons_self ..)
  refine ⟨overlay, content, hasked, fun E => ?_⟩
  have hkind := h.asked hasked
  cases hstream : content.isStream with
  | true =>
    have hhandle := handleIncoming_stream P E hW user s.broker id overlay hstream
    unfold localAfter
    rw [if_pos hstream]
    generalize s.broker.serve
      (BrokerConnectionLocal.processOverlayRequestStreamResponse P E overlay content) =
      out at hhandle ⊢
    unfold RemoteBroker.serve
    rw [hrequests]
    dsimp only
    rw [hhandle]
    cases out <;> exact ⟨rfl, fun _ => rfl⟩
  | false =>
    have hcontent : content.isCall = true := by
      obtain ⟨hcontent, -⟩ | ⟨hcontent, -⟩ := hkind
      · exact hcontent
      · rw [hstream] at hcontent
        cases hcontent
    have hhandle := handleIncoming_call P E hW user s.broker id overlay hcontent
    obtain ⟨hsame, hvalid⟩ := serve_onWire P E s.broker user overlay content
    unfold localAfter
    rw [if_neg (by simp [hstream])]
    generalize s.broker.serve (BrokerConnectionLocal.processOverlayRequest P E user overlay
      content.onWire) = out at hhandle hsame hvalid
    generalize s.broker.serve (BrokerConnectionLocal.processOverlayRequest P
      E user overlay content) =
      out' at hsame hvalid ⊢
    unfold RemoteBroker.serve
    rw [hrequests]
    dsimp only
    rw [hhandle]
    refine ⟨?_, fun hv => ?_⟩
    · have hsome := congrArg Option.isSome hsame
      simp only [Option.isSome_map] at hsome
      rw [Option.isSome_map, ← hsome]
      cases out <;> rfl
    · rw [← hvalid hv]
      cases out <;> rfl

/-- In every run of a client and its remote broker in which the callers keep their streams to the
end, every caller sees the outcome of the local call, the client alone brings every request that was
served to its end, and the broker serves the next request when the local call returns. -/
theorem remote_sameOutcome (hW : W.MessageLaws) {broker : BrokerServer} {as : List Action}
    (hrun : (new broker).run P W user as = some s)
    (hkeeps : Steps.Along (RemoteBroker.step P W user)
      (fun s a => s.keeps a = true) (new broker) as) :
    s.remote.client.readerLoop = .running ∧
      (∀ id overlay content, s.asked id = some (overlay, content) →
        SameOutcome P user s id overlay content ∧
          ((s.served id).isSome → ∃ (as' : List Remote.Internal) (s' : RemoteBroker),
            (∀ a ∈ as', (Remote.Action.internal a).id = id) ∧
            s.run P W user (as'.map .internal) = some s' ∧ s'.served = s.served ∧
            s'.remote.isFinished id = true ∧ SameOutcome P user s' id overlay content)) ∧
      ∀ id frame requests, s.requests = (id, frame) :: requests →
        ∃ overlay content, s.asked id = some (overlay, content) ∧ ∀ E,
          (s.serve P W user E).isSome = (localAfter P E user overlay content s.broker).isSome ∧
          (content.Valid P → (s.serve P W user E).map RemoteBroker.broker =
            localAfter P E user overlay content s.broker) := by
  have hinv : Inv P W user s := Steps.run_invariant_along (fun h ha hs => h.step hW ha hs)
    (inv_new broker) hkeeps hrun
  refine ⟨hinv.remote.running, fun id overlay content hasked =>
    ⟨hinv.sameOutcome hasked, fun hserved => ?_⟩,
    fun id frame requests hrequests => hinv.serve_after hW hrequests⟩
  obtain ⟨⟨sv, E⟩, hserved⟩ := Option.isSome_iff_exists.mp hserved
  obtain ⟨_, _, -, hanswered⟩ := hinv.served hserved
  have hr : (s.remote.replies id).isSome := by
    generalize s.remote.replies id = replies at hanswered
    cases hanswered <;> rfl
  obtain ⟨as', s', has, hrun', hinv', hasked', hserved', hfinished⟩ := hinv.finishes hr
  exact ⟨as', s', has, hrun', hserved', hfinished, hinv'.sameOutcome (hasked' ▸ hasked)⟩

end RemoteBroker

namespace TwoBlocks

def primitives : Primitives := reference fun _ _ => false

def wire : Wire := Reference.wire Reference.brokerMessage fun _ _ _ => .ok ()

def leaf : Block := ⟨⟨[], .objectIdList [], none, [104, 105]⟩, none, none⟩

def root : Block := ⟨⟨[leaf.getId primitives], .objectIdList [], none, [106]⟩, none, none⟩

def overlay : OverlayId := ⟨.replicate 32 5⟩

def user : PubKey := ⟨.replicate 32 6⟩

/-- A core broker that has the two blocks. -/
def broker : BrokerServer where
  store := ∅
  mode := .coreMode
  repoStores := {.overlay overlay}
  overlayidToRepostore _ := none
  disk _ := LmdbRepoStore.putTxn primitives root (LmdbRepoStore.putTxn primitives leaf .empty)

def env : Env where
  now := 1
  clock _ := 1
  randomBuf := .replicate 32 0
  createDirAll _ := true
  canOpen _ _ := true
  appendDup _ _ := true
  fuel := 2
  order := .ascending

/-- The two blocks are asked for, and an object that the broker does not have is to be deleted. The
reply to the second request is read between the frames of the first. -/
def actions : List RemoteBroker.Action :=
  [.request 1 overlay (.blockGet ⟨root.getId primitives, true, none⟩),
    .request 2 overlay (.objectDel overlay), .serve env, .serve env,
    .internal (.read 1), .internal (.stream 1 .handle), .internal (.stream 1 .error),
    .internal (.stream 1 .recv), .internal (.read 2), .internal (.call 2 .handle),
    .internal (.read 1), .internal (.stream 1 .handle), .internal (.stream 1 .recv),
    .internal (.read 1), .internal (.stream 1 .handle), .internal (.stream 1 .handle),
    .internal (.stream 1 .recv), .internal (.call 2 .handle), .internal (.call 2 .stopped),
    .internal (.call 2 .reply)]

end TwoBlocks

open RemoteBroker TwoBlocks in
/-- Both callers have seen the end of their requests. -/
theorem RemoteBroker.remote_sameOutcome_twoBlocks :
    ∃ s, (new TwoBlocks.broker).run primitives wire user actions = some s ∧
      ((s.remote.client.streamCalls 1).map fun c => (c.received, c.ended)) =
        some ([leaf, root], true) ∧
      (s.remote.client.calls 2).map Call.state = some (.returned (.error .notFound)) ∧
      SameOutcome primitives user s 1 overlay (.blockGet ⟨root.getId primitives, true, none⟩) ∧
      SameOutcome primitives user s 2 overlay (.objectDel overlay) := by
  have hseen : ((new TwoBlocks.broker).run primitives wire user actions).map (fun s =>
      ((s.remote.client.streamCalls 1).map fun c => (c.received, c.ended),
        (s.remote.client.calls 2).map Call.state)) =
      some (some ([leaf, root], true), some (.returned (.error .notFound))) := by decide +kernel
  have hasked : ((new TwoBlocks.broker).run primitives wire user actions).map (fun s =>
      (s.asked 1, s.asked 2)) =
      some (some (overlay, .blockGet ⟨root.getId primitives, true, none⟩),
        some (overlay, .objectDel overlay)) := by decide +kernel
  obtain ⟨s, hrun, hs⟩ := Option.map_eq_some_iff.mp hseen
  rw [hrun, Option.map_some, Option.some.injEq] at hasked
  obtain ⟨hreceived, hreturned⟩ := Prod.mk.inj hs
  obtain ⟨hasked₁, hasked₂⟩ := Prod.mk.inj hasked
  obtain ⟨-, hsame, -⟩ := remote_sameOutcome (Reference.wire_messageLaws fun _ _ _ => .ok ()) hrun
    (by decide +kernel)
  exact ⟨s, hrun, hreceived, hreturned, (hsame _ _ _ hasked₁).1, (hsame _ _ _ hasked₂).1⟩

end Lofire
