import Lofire.Broker.Delivery

/-!
# Abandoned streams

A caller that drops its stream closes the channel of the stream's actor, and the next block ends the
actor. The reader loop then closes the connection on the messages to that stream that are still in
flight. So an abandoned stream leaves the other requests alone exactly when no message to it is in
flight any more at the time its actor ends.
-/

namespace Lofire

open Lib

namespace Remote

variable {s s' : Remote} {id : UInt64}

/-- The reader loop is running, and no message to a request that was not abandoned is lost: the
messages that its actor has handled, those in the mailbox and those in flight are the reply. -/
structure Undisturbed (s : Remote) : Prop where
  running : s.client.readerLoop = .running
  call : ∀ id c, s.client.calls id = some c →
    c.actor.handled ++ c.actor.queued ++ s.incoming id = (s.replies id).getD []
  stream : ∀ id c, s.client.streamCalls id = some c → c.held = true →
    c.actor.handled ++ c.actor.queued ++ s.incoming id = (s.replies id).getD []

theorem Inv.undisturbed {abandons : Prop} (h : Inv abandons s) : Undisturbed s where
  running := h.running
  call id c hc := by
    have hat := h.at_id id
    rw [hc] at hat
    generalize s.client.streamCalls id = stream, s.replies id = replies,
      s.incoming id = incoming at hat
    cases hat with
    | call hcall => exact hcall.conserved
  stream id c hc hheld := by
    have hat := h.at_id id
    rw [hc] at hat
    generalize s.client.calls id = call, s.replies id = replies, s.incoming id = incoming at hat
    cases hat with
    | stream hstream => exact hstream.conserved
    | abandoned ha hstream =>
      rw [hstream.held_eq] at hheld
      cases hheld

/-! ## A connection that will be closed -/

/-- The messages in flight are responses to their requests. -/
def Responds (s : Remote) : Prop := ∀ id, ∀ m ∈ s.incoming id, m.RespondsTo id

/-- What the reader loop does with a response: it hands it to the actor of its request or closes the
connection. -/
theorem readMessage_cases {client : BrokerConnectionRemote} {m : BrokerMessage}
    (hm : m.RespondsTo id) : client.readMessage m = client.closing ∨
      (∃ c, client.readMessage m = client.setCall id c) ∨
      ∃ c, client.readMessage m = client.setStreamCall id c := by
  unfold BrokerConnectionRemote.readMessage
  rw [hm.isClose_eq, hm.isRequest_eq, hm.isResponse_eq, hm.id_eq]
  simp only [Bool.false_eq_true, if_false, Option.some.injEq]
  split
  · split
    · exact .inr (.inl ⟨_, rfl⟩)
    · exact .inl rfl
  · split
    · split
      · exact .inr (.inr ⟨_, rfl⟩)
      · exact .inl rfl
    · exact .inl rfl

/-- A step concerns one request, or it closes the connection. -/
theorem step_sameExcept (h : Responds s) {a : Action} (hs : s.step a = some s') :
    s'.client.readerLoop ≠ .running ∨ SameExcept a.id s s' := by
  cases a with
  | request id stream => exact .inr (sameExcept_request hs)
  | reply id r =>
    obtain ⟨-, hs⟩ := Option.ite_none_right_eq_some.mp hs
    cases hs
    exact .inr (sameExcept_enqueue _)
  | internal a =>
    cases a with
    | read id =>
      obtain ⟨-, m, messages, hnext, rfl⟩ := internal_read hs
      have hm : m.RespondsTo id := h id m (by rw [hnext]; exact List.mem_cons_self ..)
      obtain hread | ⟨c, hread⟩ | ⟨c, hread⟩ :
          s.client.readMessage m = _ ∨ _ := readMessage_cases hm
      · refine .inl fun h => ?_
        rw [hread] at h
        cases h
      · rw [hread]
        exact .inr (sameExcept_setCall c fun h => Function.update_of_ne h ..)
      · rw [hread]
        exact .inr (sameExcept_setStreamCall c fun h => Function.update_of_ne h ..)
    | call id a =>
      obtain ⟨c, -, c', -, rfl⟩ := internal_call hs
      exact .inr (sameExcept_setCall c' fun _ => rfl)
    | stream id a =>
      obtain ⟨c, -, c', -, rfl⟩ := internal_stream hs
      exact .inr (sameExcept_setStreamCall c' fun _ => rfl)

theorem Responds.step (h : Responds s) {a : Action} (hs : s.step a = some s') : Responds s' := by
  have hupdate (id : UInt64) {messages : List BrokerMessage} (hm : ∀ m ∈ messages, m.RespondsTo id)
      (id' : UInt64) (m : BrokerMessage) (h' : m ∈ Function.update s.incoming id messages id') :
      m.RespondsTo id' := by
    by_cases hid : id' = id
    · subst hid
      rw [Function.update_self] at h'
      exact hm m h'
    · rw [Function.update_of_ne hid] at h'
      exact h id' m h'
  cases a with
  | request id stream =>
    obtain ⟨-, hs⟩ := Option.ite_none_right_eq_some.mp hs
    cases hs
    exact h
  | reply id r =>
    obtain ⟨-, hs⟩ := Option.ite_none_right_eq_some.mp hs
    cases hs
    exact hupdate id fun m hm => Reply.respondsTo hm
  | internal a =>
    cases a with
    | read id =>
      obtain ⟨-, m, messages, hnext, rfl⟩ := internal_read hs
      exact hupdate id fun m' hm' => h id m' (by rw [hnext]; exact List.mem_cons_of_mem _ hm')
    | call id a =>
      obtain ⟨c, -, c', -, rfl⟩ := internal_call hs
      exact h
    | stream id a =>
      obtain ⟨c, -, c', -, rfl⟩ := internal_stream hs
      exact h

/-- A message is in flight to a stream whose actor has ended. -/
structure Late (s : Remote) (id : UInt64) (c : StreamCall) : Prop where
  calls_eq : s.client.calls id = none
  streamCalls_eq : s.client.streamCalls id = some c
  ended : c.actor.running = false
  incoming_ne : s.incoming id ≠ []

/-- An actor that has ended does not run again. -/
theorem running_step {c c' : StreamCall} {a : StreamStep} (h : c.actor.running = false)
    (hs : c.step a = some c') : c'.actor.running = false := by
  cases a with
  | handle =>
    obtain ⟨actor, hnext, -⟩ := Option.map_eq_some_iff.mp hs
    cases h.symm.trans (Actor.next_cases hnext).1
  | error =>
    obtain ⟨-, ⟨e, -, rfl⟩ | ⟨-, rfl⟩ | ⟨-, -, rfl⟩⟩ := StreamCall.step_error hs <;> exact h
  | stopped =>
    obtain ⟨-, -, rfl⟩ := StreamCall.step_stopped hs
    exact h
  | remove =>
    obtain ⟨-, -, rfl⟩ := StreamCall.step_remove hs
    exact h
  | recv =>
    obtain ⟨-, -, ⟨block, blocks, -, rfl⟩ | ⟨-, -, rfl⟩⟩ := StreamCall.step_recv hs <;> exact h
  | drop =>
    obtain ⟨-, -, rfl⟩ := StreamCall.step_drop hs
    exact h

/-- The reader loop closes the connection on the late message, and until then it stays in flight. -/
theorem Late.step {c : StreamCall} (h : Late s id c) (hresponds : Responds s) {a : Action}
    (hs : s.step a = some s') : s'.client.readerLoop ≠ .running ∨ ∃ c', Late s' id c' := by
  obtain hclosed | hsame := step_sameExcept hresponds hs
  · exact .inl hclosed
  · by_cases hid : id = a.id
    · cases a with
      | request id' stream =>
        have hid : id = id' := hid
        subst hid
        cases h.streamCalls_eq.symm.trans (request_eq_some hs).2.1
      | reply id' r =>
        obtain ⟨-, hs⟩ := Option.ite_none_right_eq_some.mp hs
        have hid : id = id' := hid
        subst hid
        cases hs
        refine .inr ⟨c, h.calls_eq, h.streamCalls_eq, h.ended, ?_⟩
        simp only [Remote.enqueue, Function.update_self]
        exact r.messages_ne_nil id
      | internal a =>
        cases a with
        | read id' =>
          obtain ⟨-, m, messages, hnext, rfl⟩ := internal_read hs
          have hid : id = id' := hid
          subst hid
          have hm : m.RespondsTo id := hresponds id m (by rw [hnext]; exact List.mem_cons_self ..)
          refine .inl fun hrunning => ?_
          rw [readMessage_ended hm h.calls_eq h.streamCalls_eq h.ended] at hrunning
          cases hrunning
        | call id' a =>
          obtain ⟨c₁, hc₁, -⟩ := internal_call hs
          have hid : id = id' := hid
          subst hid
          cases h.calls_eq.symm.trans hc₁
        | stream id' a =>
          obtain ⟨c₁, hc₁, c', hstep, rfl⟩ := internal_stream hs
          have hid : id = id' := hid
          subst hid
          cases h.streamCalls_eq.symm.trans hc₁
          exact .inr ⟨c', h.calls_eq, Function.update_self .., running_step h.ended hstep,
            h.incoming_ne⟩
    · exact .inr ⟨c, (hsame.calls hid).trans h.calls_eq,
        (hsame.streamCalls hid).trans h.streamCalls_eq,
        h.ended, by rw [hsame.incoming hid]; exact h.incoming_ne⟩

/-- The connection is closed, or it will be before all messages are read. -/
structure Doomed (s : Remote) : Prop where
  responds : Responds s
  closes : s.client.readerLoop ≠ .running ∨ ∃ id c, Late s id c

theorem Doomed.step (h : Doomed s) {a : Action} (hs : s.step a = some s') : Doomed s' where
  responds := h.responds.step hs
  closes := by
    obtain hclosed | ⟨id, c, hlate⟩ := h.closes
    · obtain hclosed' | hsame := step_sameExcept h.responds hs
      · exact .inl hclosed'
      · exact .inl (hsame.readerLoop ▸ hclosed)
    · exact (hlate.step h.responds hs).imp_right fun ⟨c', h'⟩ => ⟨id, c', h'⟩

/-- The loop of the actor of an abandoned stream ends too early. -/
theorem Doomed.of_not_clean (h : Inv True s) {a : Action} (ha : ¬ s.clean a = true)
    (hs : s.step a = some s') : Doomed s' := by
  refine ⟨Responds.step h.messages hs, .inr ?_⟩
  unfold clean at ha
  split at ha
  · rename_i id
    obtain ⟨c, hc, c', hstep, rfl⟩ := internal_stream hs
    have hends : (c.held = false ∧ c.actor.mailbox.head? = some .stop) ∧ s.incoming id ≠ [] := by
      simpa [hc] using ha
    obtain ⟨rest, hmailbox⟩ : ∃ rest, c.actor.mailbox = .stop :: rest :=
      List.head?_eq_some_iff.mp hends.1.2
    obtain ⟨actor, hnext, rfl⟩ := Option.map_eq_some_iff.mp hstep
    refine ⟨id, _, ?_, Function.update_self .., ?_, hends.2⟩
    · have hat := h.at_id id
      rw [hc] at hat
      generalize hcall : s.client.calls id = call at hat
      cases hat <;> exact hcall
    · obtain ⟨-, ⟨_, -, rfl⟩ | ⟨m, rest', hmailbox', -⟩⟩ := Actor.next_cases hnext
      · rfl
      · cases hmailbox.symm.trans hmailbox'
  · exact absurd rfl ha

theorem Doomed.disturbed (h : Doomed s) (hread : ∀ id, s.incoming id = []) : ¬ Undisturbed s := by
  intro hs
  obtain hclosed | ⟨id, c, hlate⟩ := h.closes
  · exact hclosed hs.running
  · exact hlate.incoming_ne (hread id)

/-! ## The condition -/

/-- Abandoned streams leave the other requests alone in a run in which the loop of the actor of an
abandoned stream ends only when no message to it is in flight. Of the runs after which no message is
in flight, these are all. -/
theorem undisturbed_iff_clean {as : List Action} (h : new.run as = some s) :
    (Steps.Along Remote.step (fun s a => s.clean a = true) new as → Undisturbed s) ∧
      ((∀ id, s.incoming id = []) →
        (Undisturbed s ↔ Steps.Along Remote.step (fun s a => s.clean a = true) new as)) := by
  have hclean (hclean : Steps.Along Remote.step (fun s a => s.clean a = true) new as) :
      Undisturbed s := by
    have hinv : Inv True s := Steps.run_invariant_along
      (fun h ha hs => h.step (fun h => absurd trivial h) (fun _ => ha) hs) inv_new hclean h
    exact hinv.undisturbed
  refine ⟨hclean, fun hread => ⟨fun hs => ?_, hclean⟩⟩
  by_contra hnot
  obtain ⟨before, a, after, s₁, s₂, hbefore, hrun, ha, hstep, hafter⟩ :=
    Steps.exists_of_not_along hnot h
  have hinv : Inv True s₁ := Steps.run_invariant_along
    (fun h ha hs => h.step (fun h => absurd trivial h) (fun _ => ha) hs) inv_new hbefore hrun
  have hdoomed : Doomed s := Steps.run_invariant (fun h hs => h.step hs)
    (Doomed.of_not_clean hinv ha hstep) hafter
  exact hdoomed.disturbed hread hs

/-! ### Two runs -/

/-- Two blocks are asked for, and another request is made; the broker has replied to both. The first
block is handled, and the caller takes the stream and drops it. -/
def dropping : List Action :=
  let block : Block := ⟨⟨[], .objectIdList [], none, []⟩, none, none⟩
  [.request 1 true, .request 2 false,
    .reply 1 (.stream ⟨.replicate 32 1⟩ (.ok [block, block])),
    .reply 2 (.overlay ⟨.replicate 32 1⟩ (.ok ())),
    .internal (.read 1), .internal (.stream 1 .handle), .internal (.stream 1 .error),
    .internal (.stream 1 .drop)]

/-- The second block ends the actor before the end of the stream is read. -/
def abandonedEarly : List Action := dropping ++
  [.internal (.read 1), .internal (.stream 1 .handle), .internal (.stream 1 .handle),
    .internal (.read 1)]

/-- The end of the stream waits in the mailbox when the second block is handled. -/
def abandonedLate : List Action := dropping ++
  [.internal (.read 1), .internal (.read 1), .internal (.stream 1 .handle),
    .internal (.stream 1 .handle), .internal (.stream 1 .handle), .internal (.read 2),
    .internal (.call 2 .handle), .internal (.call 2 .handle), .internal (.call 2 .stopped),
    .internal (.call 2 .reply)]

/-- An abandoned stream closes the connection: the reply to the other request is never read. -/
theorem not_undisturbed : ¬ ∀ as s, new.run as = some s → Undisturbed s := by
  intro h
  obtain ⟨s, hs⟩ : ∃ s, new.run abandonedEarly = some s := Option.isSome_iff_exists.mp (by decide)
  have hclosed : (new.run abandonedEarly).map (fun s => s.client.readerLoop) =
      some (.ended (.error .closing)) := by decide
  rw [hs, Option.map_some] at hclosed
  have hrunning := (h abandonedEarly s hs).running
  rw [Option.some.inj hclosed] at hrunning
  cases hrunning

theorem undisturbed_abandonedLate : ∃ s, new.run abandonedLate = some s ∧ Undisturbed s := by
  obtain ⟨s, hs⟩ : ∃ s, new.run abandonedLate = some s := Option.isSome_iff_exists.mp (by decide)
  exact ⟨s, hs, (undisturbed_iff_clean hs).1 (by decide)⟩

end Remote

end Lofire
