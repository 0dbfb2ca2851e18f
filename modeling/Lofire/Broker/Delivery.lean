import Lofire.Broker.Remote

/-!
# Delivery of the replies

Where the replies to a request are while the client runs. A call passes through the states of
`Call.Inv`. A stream whose caller keeps it is in a state of `StreamCall.Inv`: what the actor has
handled, what waits in its mailbox and what is in flight are together the reply of the broker. Of a
stream that was abandoned it remains that its actor is there while messages are in flight to it.
-/

namespace Lofire

open Lib

/-! ## The messages of a reply -/

namespace BrokerMessage

/-- A response to the request `id`. -/
structure RespondsTo (m : BrokerMessage) (id : UInt64) : Prop where
  isClose_eq : m.isClose = false
  isRequest_eq : m.isRequest = some false
  isResponse_eq : m.isResponse = some true
  id_eq : m.id = some id

end BrokerMessage

namespace BrokerProtocolHandler

variable (id : UInt64) (overlay : OverlayId)

theorem toResult_reply (res : Except ProtocolError Unit) :
    (prepareReplyBrokerMessage res id 20).toResult = some res := by
  obtain e | ⟨⟩ := res
  · cases e <;> rfl
  · rfl

theorem toResult_overlayReply (res : Except ProtocolError Unit) :
    (prepareReplyBrokerOverlayMessage res id overlay none 20).toResult = some res := by
  obtain e | ⟨⟩ := res
  · cases e <;> rfl
  · rfl

theorem toBlock_partial (b : Block) :
    (prepareReplyBrokerOverlayMessageStream (.ok b) id overlay 20).toBlock =
    some (.ok (some b)) := rfl

theorem toBlock_error (e : ProtocolError) :
    (prepareReplyBrokerOverlayMessageStream (.error e) id overlay 20).toBlock =
      some (if e.isStream then .ok none else .error e) := by
  cases e <;> rfl

end BrokerProtocolHandler

/-- The messages of a stream: one for each block, and a last one with an error or the end. -/
structure StreamMessages where
  block : Block → BrokerMessage
  last : BrokerMessage
  error : Option ProtocolError
  toBlock_block : ∀ b, (block b).toBlock = some (.ok (some b))
  toBlock_last : last.toBlock = some (match error with
    | none => .ok none
    | some e => .error e)

namespace StreamMessages

def messages (M : StreamMessages) (blocks : List Block) : List BrokerMessage :=
  blocks.map M.block ++ [M.last]

@[simp] theorem messages_nil (M : StreamMessages) : M.messages [] = [M.last] := rfl

@[simp] theorem messages_cons (M : StreamMessages) (b : Block) (blocks : List Block) :
    M.messages (b :: blocks) = M.block b :: M.messages blocks := rfl

/-- The messages of a stream tell its blocks and its error. -/
theorem messages_inj {M M' : StreamMessages} {blocks blocks' : List Block}
    (h : M.messages blocks = M'.messages blocks') : blocks = blocks' ∧ M.error = M'.error := by
  obtain ⟨hblocks, hlast⟩ := List.append_inj' h rfl
  constructor
  · have hmap := congrArg (List.map BrokerMessage.toBlock) hblocks
    simp only [List.map_map, Function.comp_def, toBlock_block] at hmap
    exact List.map_injective_iff.mpr (fun b b' hb => by simpa using hb) hmap
  · have hlast : M.last = M'.last := List.singleton_inj.mp hlast
    have herror := M.toBlock_last.symm.trans ((congrArg _ hlast).trans M'.toBlock_last)
    cases hM : M.error <;> cases hM' : M'.error <;> rw [hM, hM'] at herror <;> cases herror
    rfl

theorem legible (M : StreamMessages) {blocks : List Block} {m : BrokerMessage}
    (h : m ∈ M.messages blocks) : m.toBlock.isSome := by
  rcases List.mem_append.mp h with h | h
  · obtain ⟨b, -, rfl⟩ := List.mem_map.mp h
    rw [M.toBlock_block]
    rfl
  · rw [List.mem_singleton.mp h, M.toBlock_last]
    rfl

end StreamMessages

namespace Reply

open BrokerProtocolHandler

theorem respondsTo {r : Reply} {id : UInt64} {m : BrokerMessage} (h : m ∈ r.messages id) :
    m.RespondsTo id := by
  obtain res | ⟨overlay, res⟩ | ⟨overlay, e | blocks⟩ := r
  · rw [List.mem_singleton.mp h]
    exact ⟨rfl, rfl, rfl, rfl⟩
  · rw [List.mem_singleton.mp h]
    exact ⟨rfl, rfl, rfl, rfl⟩
  · rw [List.mem_singleton.mp h]
    exact ⟨rfl, rfl, rfl, rfl⟩
  · rcases List.mem_append.mp h with h | h
    · obtain ⟨b, -, rfl⟩ := List.mem_map.mp h
      exact ⟨rfl, rfl, rfl, rfl⟩
    · rw [List.mem_singleton.mp h]
      exact ⟨rfl, rfl, rfl, rfl⟩

/-- A reply that is no stream is one message. -/
theorem messages_single {r : Reply} (id : UInt64) (h : r.isStream = false) :
    ∃ m res, r.messages id = [m] ∧ m.toResult = some res := by
  obtain res | ⟨overlay, res⟩ | ⟨overlay, res⟩ := r
  · exact ⟨_, res, rfl, toResult_reply ..⟩
  · exact ⟨_, res, rfl, toResult_overlayReply ..⟩
  · cases h

/-- The messages of a stream of blocks; an error is sent alone. -/
def streamMessages (id : UInt64) (overlay : OverlayId) :
    Except ProtocolError (List Block) → StreamMessages
  | .ok _ => ⟨fun b => prepareReplyBrokerOverlayMessageStream (.ok b) id overlay 20,
      prepareReplyBrokerOverlayMessageStream (.error .endOfStream) id overlay 20, none,
      toBlock_partial id overlay, rfl⟩
  | .error e => ⟨fun b => prepareReplyBrokerOverlayMessageStream (.ok b) id overlay 20,
      prepareReplyBrokerOverlayMessageStream (.error e) id overlay 20,
      if e.isStream then none else some e, toBlock_partial id overlay, by
        rw [toBlock_error]
        split <;> rfl⟩

theorem isStream_iff {r : Reply} :
    r.isStream = true ↔ ∃ overlay res, r = stream overlay res := by
  constructor
  · intro h
    obtain res | ⟨overlay, res⟩ | ⟨overlay, res⟩ := r
    · cases h
    · cases h
    · exact ⟨overlay, res, rfl⟩
  · rintro ⟨overlay, res, rfl⟩
    rfl

theorem messages_ne_nil (r : Reply) (id : UInt64) : r.messages id ≠ [] := by
  obtain res | ⟨overlay, res⟩ | ⟨overlay, e | blocks⟩ := r <;> simp [messages]

/-- The blocks of a reply. -/
def streamBlocks : Except ProtocolError (List Block) → List Block
  | .ok blocks => blocks
  | .error _ => []

theorem messages_stream (id : UInt64) (overlay : OverlayId)
    (res : Except ProtocolError (List Block)) :
    (stream overlay res).messages id = (streamMessages id overlay res).messages
    (streamBlocks res) := by
  cases res <;> rfl

theorem streamMessages_error (id : UInt64) (overlay : OverlayId)
    (res : Except ProtocolError (List Block)) :
    (streamMessages id overlay res).error = none ∨ streamBlocks res = [] := by
  cases res with
  | ok blocks => exact .inl rfl
  | error e => exact .inr rfl

end Reply

/-! ## A call -/

namespace Call

/-- The states of a call whose reply, once the broker has sent it, is the message `m`. -/
inductive Inv : Option (List BrokerMessage) → List BrokerMessage → Call → Prop
  | unanswered : Inv none [] new
  | waiting {m res} (hm : m.toResult = some res) {queue incoming : List BrokerMessage}
      (h : queue ++ incoming = [m]) :
      Inv (some [m]) incoming ⟨⟨.new, queue.map .exec, true, []⟩, true, true, .waiting⟩
  | stopping {m res} (hm : m.toResult = some res) :
      Inv (some [m]) [] ⟨⟨⟨some m⟩, [.stop], true, [m]⟩, true, true, .waiting⟩
  | stopped {m res} (hm : m.toResult = some res) (addr : Bool) :
      Inv (some [m]) [] ⟨⟨⟨some m⟩, [], false, [m]⟩, true, addr, .waiting⟩
  | returned {m res} (hm : m.toResult = some res) :
      Inv (some [m]) [] ⟨⟨⟨some m⟩, [], false, [m]⟩, false, false, .returned res⟩

variable {replies : Option (List BrokerMessage)} {incoming : List BrokerMessage} {c c' : Call}

/-- The reply is on its way. -/
theorem Inv.enqueue (h : c.Inv none incoming) {m : BrokerMessage} {res : Except ProtocolError Unit}
    (hm : m.toResult = some res) : c.Inv (some [m]) [m] := by
  cases h with
  | unanswered =>
    have hwaiting := waiting hm (List.nil_append [m])
    exact hwaiting

/-- An actor to which a message is in flight takes it. -/
theorem Inv.read {m : BrokerMessage} (h : c.Inv replies (m :: incoming)) :
    c.entry = true ∧ c.addr = true ∧ ∃ actor, c.actor.send m = some actor ∧
      Inv replies incoming { c with actor } := by
  cases h with
  | @waiting m' res hm queue _ h =>
    refine ⟨rfl, rfl, _, Actor.send_of_running rfl m, ?_⟩
    have hmailbox : queue.map ActorEvent.exec ++ [.exec m] =
        (queue ++ [m]).map ActorEvent.exec := by
      rw [List.map_append, List.map_singleton]
    dsimp only
    rw [hmailbox]
    exact .waiting hm (by rw [List.append_assoc]; exact h)

theorem Inv.step (h : c.Inv replies incoming) {a : CallStep} (hs : c.step a = some c') :
    c'.Inv replies incoming := by
  cases h with
  | unanswered => cases a <;> cases hs
  | @waiting m res hm queue _ h =>
    cases a with
    | handle =>
      cases queue with
      | nil => cases hs
      | cons m' queue =>
        obtain ⟨hm', htail⟩ := List.cons.inj h
        obtain ⟨rfl, rfl⟩ := List.append_eq_nil_iff.mp htail
        subst hm'
        cases hs
        exact .stopping hm
    | stopped => cases hs
    | reply => cases hs
  | stopping hm =>
    cases a with
    | handle =>
      cases hs
      exact .stopped hm true
    | stopped => cases hs
    | reply => cases hs
  | stopped hm addr =>
    cases a with
    | handle => cases hs
    | stopped =>
      cases addr with
      | false => cases hs
      | true =>
        cases hs
        exact .stopped hm false
    | reply =>
      cases addr with
      | true => cases hs
      | false =>
        cases hs
        rw [hm]
        exact .returned hm
  | returned hm => cases a <;> cases hs

/-- What the actor has handled, what waits in its mailbox and what is in flight are the reply. -/
theorem Inv.conserved (h : c.Inv replies incoming) :
    c.actor.handled ++ c.actor.queued ++ incoming = replies.getD [] := by
  cases h with
  | unanswered => rfl
  | @waiting m res hm queue incoming h =>
    exact (congrArg (· ++ incoming) (Actor.queued_map_exec queue)).trans h
  | stopping hm => rfl
  | stopped hm addr => rfl
  | returned hm => rfl

end Call

/-! ## A stream -/

namespace BrokerMessageStreamActor

variable {a : BrokerMessageStreamActor} {m : BrokerMessage}

theorem handle_block {b : Block} (hm : m.toBlock = some (.ok (some b))) (ha : a.closed = false) :
    a.handle m = some (⟨a.blocks ++ [b], false, a.error.or (some none)⟩, false) := by
  obtain ⟨blocks, closed, error⟩ := a
  subst ha
  unfold handle
  rw [hm]
  rfl

theorem handle_isSome (a : BrokerMessageStreamActor) (hm : m.toBlock.isSome) :
    (a.handle m).isSome := by
  obtain ⟨res, hres⟩ := Option.isSome_iff_exists.mp hm
  unfold handle
  rw [hres]
  obtain e | ⟨_ | b⟩ := res
  · rfl
  · rfl
  · dsimp only
    split <;> rfl

theorem handle_last {error : Option ProtocolError} (hm : m.toBlock = some (match error with
    | none => .ok none
    | some e => .error e)) :
    a.handle m = some (⟨a.blocks, true, a.error.or (some error)⟩, true) := by
  unfold handle
  rw [hm]
  cases error <;> rfl

end BrokerMessageStreamActor

namespace StreamCall

/-- The states of a call whose caller keeps its stream to the end. The reply, once the broker has
sent it, consists of the messages `M` of some blocks. -/
inductive Inv : Option (List BrokerMessage) → List BrokerMessage → StreamCall → Prop
  | unanswered : Inv none [] new
  /-- The blocks `before` were handled, and of these `pending` are in the channel. -/
  | going {M : StreamMessages} {before after received pending : List Block}
      {queue incoming : List BrokerMessage} {state : StreamState}
      (herror : M.error = none ∨ before ++ after = [])
      (hqueue : queue ++ incoming = M.messages after) (hbefore : received ++ pending = before)
      (hstate : state = .waiting ∧ received = [] ∨ state = .opened ∧ before ≠ []) :
      Inv (some (M.messages (before ++ after))) incoming
        ⟨⟨⟨pending, false, if before = [] then none else some none⟩, queue.map .exec, true,
          before.map M.block⟩, true, true, state, true, received, false⟩
  /-- All messages were handled. -/
  | finished {M : StreamMessages} {received pending : List Block} {state : StreamState}
      (herror : M.error = none ∨ received ++ pending = []) (running entry addr held ended : Bool)
      (hstate : state = .waiting ∧ received = [] ∨ (∃ e, M.error = some e ∧ state = .failed e) ∨
        M.error = none ∧ state = .opened)
      (hended : ended = true → pending = [] ∧ state = .opened)
      (hheld : held = false → ended = true) :
      Inv (some (M.messages (received ++ pending))) []
        ⟨⟨⟨pending, true, some M.error⟩, if running then [.stop] else [], running,
          M.messages (received ++ pending)⟩, entry, addr, state, held, received, ended⟩

/-- The caller has dropped the stream. -/
structure Abandoned (replies : Option (List BrokerMessage)) (incoming : List BrokerMessage)
    (c : StreamCall) : Prop where
  state_eq : c.state = .opened
  held_eq : c.held = false
  replied : replies.isSome
  attached : incoming ≠ [] → c.actor.running = true ∧ c.addr = true ∧ c.entry = true
  legible : ∀ m ∈ c.actor.queued ++ incoming, m.toBlock.isSome

variable {replies : Option (List BrokerMessage)} {incoming : List BrokerMessage} {c c' : StreamCall}

/-! What the caller and its task can do. -/

theorem step_error (hs : c.step .error = some c') : c.state = .waiting ∧
    ((∃ e, c.actor.state.error = some (some e) ∧
        c' = { c with entry := false, addr := false, state := .failed e }) ∨
      (c.actor.state.error = some none ∧ c' = { c with state := .opened }) ∨
      c.actor.state.error = none ∧ c.actor.running = false ∧
        c' = { c with addr := false, state := .failed .closing }) := by
  simp only [step] at hs
  split at hs
  · rename_i hwaiting
    refine ⟨hwaiting, ?_⟩
    split at hs
    · rename_i e herror
      cases hs
      exact .inl ⟨e, herror, rfl⟩
    · rename_i herror
      cases hs
      exact .inr (.inl ⟨herror, rfl⟩)
    · rename_i herror
      split at hs
      · cases hs
      · rename_i hrunning
        cases hs
        exact .inr (.inr ⟨herror, Bool.eq_false_iff.mpr hrunning, rfl⟩)
  · cases hs

theorem step_stopped (hs : c.step .stopped = some c') :
    c.state = .opened ∧ c.actor.running = false ∧ c' = { c with addr := false } := by
  simp only [step] at hs
  split at hs
  · rename_i h
    cases hs
    exact ⟨h.1, by simpa using h.2.2, rfl⟩
  · cases hs

theorem step_remove (hs : c.step .remove = some c') :
    c.state = .opened ∧ c.addr = false ∧ c' = { c with entry := false } := by
  simp only [step] at hs
  split at hs
  · rename_i h
    cases hs
    exact ⟨h.1, by simpa using h.2.1, rfl⟩
  · cases hs

theorem step_recv (hs : c.step .recv = some c') : c.state = .opened ∧ c.held = true ∧
    ((∃ block blocks, c.actor.state.blocks = block :: blocks ∧ c' = { c with
        actor := { c.actor with state := { c.actor.state with blocks } }
        received := c.received ++ [block] }) ∨
      c.actor.state.blocks = [] ∧ (c.actor.state.closed = true ∨ c.actor.running = false) ∧
        c' = { c with ended := true }) := by
  simp only [step] at hs
  split at hs
  · rename_i h
    refine ⟨h.1, h.2.1, ?_⟩
    split at hs
    · rename_i block blocks hblocks
      cases hs
      exact .inl ⟨block, blocks, hblocks, rfl⟩
    · rename_i hblocks
      split at hs
      · rename_i hclosed
        cases hs
        exact .inr ⟨hblocks, by simpa using hclosed, rfl⟩
      · cases hs
  · cases hs

theorem step_drop (hs : c.step .drop = some c') : c.state = .opened ∧ c.held = true ∧
    c' = { c with
      actor := { c.actor with state := c.actor.state.dropReceiver }, held := false } := by
  simp only [step] at hs
  split at hs
  · rename_i h
    cases hs
    exact ⟨h.1, h.2, rfl⟩
  · cases hs

/-- The reply is on its way. -/
theorem Inv.enqueue (h : c.Inv none incoming) {M : StreamMessages} {blocks : List Block}
    (herror : M.error = none ∨ blocks = []) :
    c.Inv (some (M.messages blocks)) (M.messages blocks) := by
  cases h with
  | unanswered =>
    have hgoing := going (List.nil_append blocks ▸ herror) (List.nil_append (M.messages blocks))
      (List.nil_append []) (.inl ⟨rfl, rfl⟩)
    exact hgoing

/-- An actor to which a message is in flight takes it. -/
theorem Inv.read {m : BrokerMessage} (h : c.Inv replies (m :: incoming)) :
    c.entry = true ∧ c.addr = true ∧ ∃ actor, c.actor.send m = some actor ∧
      Inv replies incoming { c with actor } := by
  cases h with
  | @going M before after received pending queue _ state herror hqueue hbefore hstate =>
    refine ⟨rfl, rfl, _, Actor.send_of_running rfl m, ?_⟩
    have hmailbox : queue.map ActorEvent.exec ++ [.exec m] =
        (queue ++ [m]).map ActorEvent.exec := by
      rw [List.map_append, List.map_singleton]
    dsimp only
    rw [hmailbox]
    exact .going herror (by rw [List.append_assoc]; exact hqueue) hbefore hstate

theorem Inv.handle (h : c.Inv replies incoming) (hs : c.step .handle = some c') :
    c'.Inv replies incoming := by
  obtain ⟨actor, hnext, rfl⟩ := Option.map_eq_some_iff.mp hs
  cases h with
  | unanswered => cases hnext
  | @going M before after received pending queue _ state herror hqueue hbefore hstate =>
    have hsent (error : Option ProtocolError) (h : error = none ∨ before = []) :
        (if before = [] then none else some none).or (some error) = some error := by
      split
      · rfl
      · rename_i hne
        rw [h.resolve_right hne]
        rfl
    cases queue with
    | nil => cases hnext
    | cons m queue =>
      cases after with
      | cons b after =>
        -- a block
        obtain ⟨rfl, htail⟩ := List.cons.inj hqueue
        rw [Actor.next_exec rfl rfl (BrokerMessageStreamActor.handle_block (M.toBlock_block b) rfl),
          hsent none (.inl rfl)] at hnext
        cases hnext
        have hgoing : Inv (some (M.messages ((before ++ [b]) ++ after))) incoming _ :=
          .going (by simpa using herror) htail (by rw [← List.append_assoc, hbefore])
            (hstate.imp_right fun h => ⟨h.1, by simp⟩)
        simpa using hgoing
      | nil =>
        -- the last message
        obtain ⟨rfl, htail⟩ := List.cons.inj hqueue
        obtain ⟨rfl, rfl⟩ := List.append_eq_nil_iff.mp htail
        rw [List.append_nil] at herror
        rw [Actor.next_exec rfl rfl (BrokerMessageStreamActor.handle_last M.toBlock_last),
          hsent M.error herror] at hnext
        cases hnext
        subst hbefore
        rw [List.append_nil]
        refine .finished herror true true true true false ?_
          (fun h => by cases h) (fun h => by cases h)
        exact hstate.imp_right fun h => .inr ⟨herror.resolve_right h.2, h.1⟩
  | finished herror running entry addr held ended hstate hended hheld =>
    cases running with
    | false => cases hnext
    | true =>
      cases hnext
      exact .finished herror false entry addr held ended hstate hended hheld

theorem Inv.step (h : c.Inv replies incoming) {a : StreamStep} (hdrop : a = .drop → c.ended = true)
    (hs : c.step a = some c') : c'.Inv replies incoming := by
  cases a with
  | handle => exact h.handle hs
  | error =>
    obtain ⟨hwaiting, hs⟩ := step_error hs
    cases h with
    | unanswered => obtain ⟨e, herr, -⟩ | ⟨herr, -⟩ | ⟨-, hstopped, -⟩ := hs <;> contradiction
    | @going M before after received pending queue _ state herror hqueue hbefore hstate =>
      have hreceived : received = [] := by
        obtain ⟨-, h⟩ | ⟨hopened, -⟩ := hstate
        · exact h
        · cases hwaiting.symm.trans hopened
      obtain ⟨e, herr, -⟩ | ⟨herr, rfl⟩ | ⟨-, hstopped, -⟩ := hs
      · dsimp only at herr
        split at herr <;> cases herr
      · have hb : before ≠ [] := by
          rintro rfl
          cases herr
        exact .going herror hqueue hbefore (.inr ⟨rfl, hb⟩)
      · cases hstopped
    | @finished M received pending state herror running entry addr held ended hstate hended hheld =>
      have hnot : ended ≠ true := fun h => by cases hwaiting.symm.trans (hended h).2
      obtain ⟨e, herr, rfl⟩ | ⟨herr, rfl⟩ | ⟨herr, -⟩ := hs
      · exact .finished herror running false false held ended
          (.inr (.inl ⟨e, Option.some.inj herr, rfl⟩)) (fun h => absurd h hnot) hheld
      · exact .finished herror running entry addr held ended
          (.inr (.inr ⟨Option.some.inj herr, rfl⟩)) (fun h => absurd h hnot) hheld
      · cases herr
  | stopped =>
    obtain ⟨hopened, hstopped, rfl⟩ := step_stopped hs
    cases h with
    | unanswered => cases hopened
    | going => cases hstopped
    | finished herror running entry addr held ended hstate hended hheld =>
      exact .finished herror running entry false held ended hstate hended hheld
  | remove =>
    obtain ⟨hopened, haddr, rfl⟩ := step_remove hs
    cases h with
    | unanswered => cases hopened
    | going => cases haddr
    | finished herror running entry addr held ended hstate hended hheld =>
      exact .finished herror running false addr held ended hstate hended hheld
  | recv =>
    obtain ⟨hopened, -, hs⟩ := step_recv hs
    cases h with
    | unanswered => cases hopened
    | going herror hqueue hbefore hstate =>
      have hstate := hstate.resolve_left fun h => by cases hopened.symm.trans h.1
      obtain ⟨block, blocks, hblocks, rfl⟩ | ⟨-, hclosed | hstopped, -⟩ := hs
      · cases hblocks
        exact .going herror hqueue (by rw [List.append_assoc]; exact hbefore) (.inr hstate)
      · cases hclosed
      · cases hstopped
    | @finished M received pending state herror running entry addr held ended hstate hended hheld =>
      obtain ⟨block, blocks, hblocks, rfl⟩ | ⟨hblocks, -, rfl⟩ := hs
      · cases hblocks
        have hlist : received ++ block :: blocks = (received ++ [block]) ++ blocks := by simp
        rw [hlist] at herror ⊢
        refine .finished herror running entry addr held ended (.inr ?_) (fun h => ?_) hheld
        · exact hstate.resolve_left fun h => by cases hopened.symm.trans h.1
        · cases (hended h).1
      · cases hblocks
        exact .finished herror running entry addr held true hstate (fun _ => ⟨rfl, hopened⟩)
          (fun _ => rfl)
  | drop =>
    obtain ⟨hopened, -, rfl⟩ := step_drop hs
    cases h with
    | unanswered => cases hopened
    | going => cases hdrop rfl
    | finished herror running entry addr held ended hstate hended hheld =>
      obtain ⟨rfl, -⟩ := hended (hdrop rfl)
      exact .finished herror running entry addr false ended hstate hended (fun _ => hdrop rfl)

theorem Abandoned.read {m : BrokerMessage} (h : c.Abandoned replies (m :: incoming)) :
    c.entry = true ∧ c.addr = true ∧ ∃ actor, c.actor.send m = some actor ∧
      Abandoned replies incoming { c with actor } := by
  obtain ⟨hrunning, haddr, hentry⟩ := h.attached (by simp)
  refine ⟨hentry, haddr, _, Actor.send_of_running hrunning m, h.state_eq, h.held_eq, h.replied,
    fun _ => ⟨hrunning, haddr, hentry⟩, fun m' hm' => h.legible m' ?_⟩
  simpa [Actor.queued, ActorEvent.message] using hm'

theorem Inv.abandoned (h : c.Inv replies incoming) (hs : c.step .drop = some c') :
    c'.Abandoned replies incoming := by
  obtain ⟨hopened, -, rfl⟩ := step_drop hs
  cases h with
  | unanswered => cases hopened
  | @going M before after received pending queue _ state herror hqueue hbefore hstate =>
    refine ⟨hopened, rfl, rfl, fun _ => ⟨rfl, rfl, rfl⟩,
      fun m hm => M.legible (?_ : m ∈ M.messages after)⟩
    rw [← hqueue]
    exact (congrArg (m ∈ · ++ incoming) (Actor.queued_map_exec queue)).mp hm
  | finished herror running entry addr held ended hstate hended hheld =>
    refine ⟨hopened, rfl, rfl, fun h => absurd rfl h, fun m hm => ?_⟩
    cases running <;> cases hm

/-- The loop of its actor ends when no message to it is in flight. -/
theorem Abandoned.step (h : c.Abandoned replies incoming) {a : StreamStep}
    (hclean : a = .handle → c.actor.mailbox.head? = some .stop → incoming = [])
    (hs : c.step a = some c') : c'.Abandoned replies incoming := by
  cases a with
  | handle =>
    obtain ⟨actor, hnext, rfl⟩ := Option.map_eq_some_iff.mp hs
    obtain ⟨hrunning, ⟨rest, hmailbox, rfl⟩ | ⟨m, rest, hmailbox, hhandle⟩⟩ :=
      Actor.next_cases hnext
    · have hincoming := hclean rfl (by rw [hmailbox]; rfl)
      subst hincoming
      exact ⟨h.state_eq, h.held_eq, h.replied,
        fun h => absurd rfl h, by simp [Actor.exit, Actor.queued]⟩
    · have hlegible := h.legible
      simp only [Actor.queued, hmailbox, List.filterMap_cons, ActorEvent.message] at hlegible
      obtain ⟨hpanic, -⟩ | ⟨state, stops, hhandle, rfl⟩ := hhandle
      · -- its messages can be read
        have hm := BrokerMessageStreamActor.handle_isSome c.actor.state (hlegible m (by simp))
        rw [hpanic] at hm
        cases hm
      · refine ⟨h.state_eq, h.held_eq, h.replied, fun hne => ⟨hrunning, (h.attached hne).2⟩,
          fun m' hm' => hlegible m' ?_⟩
        simp only [Actor.queued, Actor.queued_append_stop, List.mem_append] at hm'
        exact List.mem_append.mpr (hm'.imp_left (List.mem_cons_of_mem m))
  | error =>
    have hwaiting := (step_error hs).1
    rw [h.state_eq] at hwaiting
    cases hwaiting
  | stopped =>
    obtain ⟨-, hstopped, rfl⟩ := step_stopped hs
    refine ⟨h.state_eq, h.held_eq, h.replied, fun hne => ?_, h.legible⟩
    rw [(h.attached hne).1] at hstopped
    cases hstopped
  | remove =>
    obtain ⟨-, haddr, rfl⟩ := step_remove hs
    refine ⟨h.state_eq, h.held_eq, h.replied, fun hne => ?_, h.legible⟩
    rw [(h.attached hne).2.1] at haddr
    cases haddr
  | recv =>
    have hheld := (step_recv hs).2.1
    rw [h.held_eq] at hheld
    cases hheld
  | drop =>
    have hheld := (step_drop hs).2.1
    rw [h.held_eq] at hheld
    cases hheld

/-- What the actor has handled, what waits in its mailbox and what is in flight are the reply. -/
theorem Inv.conserved (h : c.Inv replies incoming) :
    c.actor.handled ++ c.actor.queued ++ incoming = replies.getD [] := by
  cases h with
  | unanswered => rfl
  | @going M before after received pending queue _ state herror hqueue hbefore hstate =>
    have hqueued : (before.map M.block ++ (queue.map ActorEvent.exec).filterMap
      ActorEvent.message) ++
        incoming = M.messages (before ++ after) := by
      rw [Actor.queued_map_exec, List.append_assoc, hqueue]
      simp [StreamMessages.messages]
    exact hqueued
  | finished herror running => cases running <;> exact (List.append_nil _).trans (List.append_nil _)

end StreamCall

/-! ## The client -/

namespace Remote

/-- Where the client is with a request. Whether a stream may be abandoned is left to `abandons`. -/
inductive At (abandons : Prop) : Option Call → Option StreamCall → Option (List BrokerMessage) →
    List BrokerMessage → Prop
  | fresh : At abandons none none none []
  | call {c replies incoming} (h : Call.Inv replies incoming c) :
      At abandons (some c) none replies incoming
  | stream {c replies incoming} (h : StreamCall.Inv replies incoming c) :
      At abandons none (some c) replies incoming
  | abandoned {c replies incoming} (ha : abandons) (h : c.Abandoned replies incoming) :
      At abandons none (some c) replies incoming

structure Inv (abandons : Prop) (s : Remote) : Prop where
  running : s.client.readerLoop = .running
  messages : ∀ id, ∀ m ∈ s.incoming id, m.RespondsTo id
  at_id : ∀ id, At abandons (s.client.calls id) (s.client.streamCalls id)
    (s.replies id) (s.incoming id)

/-- A caller drops its stream only after its end. -/
def keeps (s : Remote) : Action → Bool
  | .internal (.stream id .drop) => (s.client.streamCalls id).all StreamCall.ended
  | _ => true

/-- The loop of the actor of an abandoned stream ends only when no message to it is in flight. -/
def clean (s : Remote) : Action → Bool
  | .internal (.stream id .handle) => (s.client.streamCalls id).all fun c =>
    c.held || c.actor.mailbox.head? != some .stop || (s.incoming id).isEmpty
  | _ => true

variable {abandons : Prop} {s s' : Remote} {id : UInt64}

theorem ended_of_keeps {c : StreamCall} (h : s.keeps (.internal (.stream id .drop)) = true)
    (hc : s.client.streamCalls id = some c) : c.ended = true := by
  simpa [keeps, hc] using h

theorem clean_iff {c : StreamCall} (hc : s.client.streamCalls id = some c) :
    s.clean (.internal (.stream id .handle)) = true ↔
      (c.held = false → c.actor.mailbox.head? = some .stop → s.incoming id = []) := by
  simp only [clean, hc, Option.all_some, Bool.or_eq_true, bne_iff_ne, List.isEmpty_iff]
  cases c.held <;> simp [or_iff_not_imp_left]

theorem inv_new : Inv abandons new where
  running := rfl
  messages _ _ h := by cases h
  at_id _ := .fresh

/-- The states differ at most in what concerns one request. -/
structure SameExcept (id : UInt64) (s s' : Remote) : Prop where
  readerLoop : s'.client.readerLoop = s.client.readerLoop
  calls : ∀ {id'}, id' ≠ id → s'.client.calls id' = s.client.calls id'
  streamCalls : ∀ {id'}, id' ≠ id → s'.client.streamCalls id' = s.client.streamCalls id'
  replies : ∀ {id'}, id' ≠ id → s'.replies id' = s.replies id'
  incoming : ∀ {id'}, id' ≠ id → s'.incoming id' = s.incoming id'

theorem Inv.of_sameExcept (h : Inv abandons s) (hsame : SameExcept id s s')
    (hmessages : ∀ m ∈ s'.incoming id, m.RespondsTo id)
    (hat : At abandons (s'.client.calls id) (s'.client.streamCalls id) (s'.replies id)
      (s'.incoming id)) : Inv abandons s' where
  running := hsame.readerLoop.trans h.running
  messages id' m hm := by
    by_cases hid : id' = id
    · subst hid
      exact hmessages m hm
    · rw [hsame.incoming hid] at hm
      exact h.messages id' m hm
  at_id id' := by
    by_cases hid : id' = id
    · subst hid
      exact hat
    · rw [hsame.calls hid, hsame.streamCalls hid, hsame.replies hid, hsame.incoming hid]
      exact h.at_id id'

theorem sameExcept_setCall (c : Call) {incoming : UInt64 → List BrokerMessage}
    (h : ∀ {id'}, id' ≠ id → incoming id' = s.incoming id') :
    SameExcept id s { s with client := s.client.setCall id c, incoming } :=
  ⟨rfl, fun h => Function.update_of_ne h .., fun _ => rfl, fun _ => rfl, h⟩

theorem sameExcept_setStreamCall (c : StreamCall) {incoming : UInt64 → List BrokerMessage}
    (h : ∀ {id'}, id' ≠ id → incoming id' = s.incoming id') :
    SameExcept id s { s with client := s.client.setStreamCall id c, incoming } :=
  ⟨rfl, fun _ => rfl, fun h => Function.update_of_ne h .., fun _ => rfl, h⟩

theorem sameExcept_enqueue (messages : List BrokerMessage) :
    SameExcept id s (s.enqueue id messages) :=
  ⟨rfl, fun _ => rfl, fun _ => rfl, fun h => Function.update_of_ne h .., fun h =>
    Function.update_of_ne h ..⟩

/-- The reader loop hands a response to the actor of a call. -/
theorem readMessage_call {client : BrokerConnectionRemote}
    {m : BrokerMessage} (hm : m.RespondsTo id)
    {c : Call} (hc : client.calls id = some c) (hentry : c.entry = true) (haddr : c.addr = true)
    {actor : Actor BrokerMessage BrokerMessageActor} (hsend : c.actor.send m = some actor) :
    client.readMessage m = client.setCall id { c with actor } := by
  have hactors : client.actors id = some c := by
    rw [BrokerConnectionRemote.actors, hc, Option.filter_some_pos hentry]
  unfold BrokerConnectionRemote.readMessage
  rw [hm.isClose_eq, hm.isRequest_eq, hm.isResponse_eq, hm.id_eq]
  simp only [hactors, haddr, hsend]
  rfl

/-- The reader loop hands a response to the actor of a stream. -/
theorem readMessage_stream {client : BrokerConnectionRemote}
    {m : BrokerMessage} (hm : m.RespondsTo id)
    (hnone : client.calls id = none) {c : StreamCall} (hc : client.streamCalls id = some c)
    (hentry : c.entry = true) (haddr : c.addr = true)
    {actor : Actor BrokerMessage BrokerMessageStreamActor} (hsend : c.actor.send m = some actor) :
    client.readMessage m = client.setStreamCall id { c with actor } := by
  have hactors : client.actors id = none := by
    rw [BrokerConnectionRemote.actors, hnone]
    rfl
  have hstreamActors : client.streamActors id = some c := by
    rw [BrokerConnectionRemote.streamActors, hc, Option.filter_some_pos hentry]
  unfold BrokerConnectionRemote.readMessage
  rw [hm.isClose_eq, hm.isRequest_eq, hm.isResponse_eq, hm.id_eq]
  simp only [hactors, hstreamActors, haddr, hsend]
  rfl

/-- A response to a stream whose actor has ended closes the connection. -/
theorem readMessage_ended {client : BrokerConnectionRemote}
    {m : BrokerMessage} (hm : m.RespondsTo id)
    (hnone : client.calls id = none) {c : StreamCall} (hc : client.streamCalls id = some c)
    (hrunning : c.actor.running = false) : client.readMessage m = client.closing := by
  have hactors : client.actors id = none := by
    rw [BrokerConnectionRemote.actors, hnone]
    rfl
  unfold BrokerConnectionRemote.readMessage
  rw [hm.isClose_eq, hm.isRequest_eq, hm.isResponse_eq, hm.id_eq]
  simp only [hactors, BrokerConnectionRemote.streamActors, hc, Option.filter_some]
  cases c.entry with
  | false => rfl
  | true => cases c.addr <;> simp [Actor.send_eq_none hrunning]

theorem request_eq_some {stream : Bool} (hs : s.request id stream = some s') :
    s.client.calls id = none ∧ s.client.streamCalls id = none ∧ s' = { s with
      client := if stream then s.client.setStreamCall id .new else s.client.setCall id .new } := by
  obtain ⟨hfresh, hs⟩ := Option.ite_none_right_eq_some.mp hs
  cases hs
  have hfresh : s.client.calls id = none ∧ s.client.streamCalls id = none := by
    simpa [isFresh] using hfresh.2
  exact ⟨hfresh.1, hfresh.2, rfl⟩

theorem sameExcept_request {stream : Bool} (hs : s.request id stream = some s') :
    SameExcept id s s' := by
  obtain ⟨-, -, rfl⟩ := request_eq_some hs
  cases stream with
  | true => exact sameExcept_setStreamCall .new fun _ => rfl
  | false => exact sameExcept_setCall .new fun _ => rfl

theorem Inv.request (h : Inv abandons s) {stream : Bool} (hs : s.request id stream = some s') :
    Inv abandons s' := by
  obtain ⟨hcalls, hstreams, rfl⟩ := request_eq_some hs
  have hat := h.at_id id
  rw [hcalls, hstreams] at hat
  cases stream with
  | true =>
    refine h.of_sameExcept (sameExcept_setStreamCall .new fun _ => rfl) (h.messages id) ?_
    simp only [if_true, BrokerConnectionRemote.setStreamCall, Function.update_self, hcalls]
    generalize s.replies id = replies, s.incoming id = incoming at hat
    cases hat
    exact .stream .unanswered
  | false =>
    refine h.of_sameExcept (sameExcept_setCall .new fun _ => rfl) (h.messages id) ?_
    simp only [Bool.false_eq_true, if_false, BrokerConnectionRemote.setCall, Function.update_self,
      hstreams]
    generalize s.replies id = replies, s.incoming id = incoming at hat
    cases hat
    exact .call .unanswered

/-- A reply of the broker is on its way. -/
theorem Inv.enqueue (h : Inv abandons s) {r : Reply} (hnone : s.replies id = none)
    (hkind : (if r.isStream then (s.client.streamCalls id).isSome else (s.client.calls id).isSome) =
      true) :
    Inv abandons (s.enqueue id (r.messages id)) := by
  refine h.of_sameExcept (sameExcept_enqueue _) (fun m hm => ?_) ?_
  · simp only [Remote.enqueue, Function.update_self] at hm
    exact Reply.respondsTo hm
  · have hat := h.at_id id
    rw [hnone] at hat
    simp only [Remote.enqueue, Function.update_self]
    generalize s.client.calls id = call, s.client.streamCalls id = stream, s.incoming id = incoming
      at hat hkind
    cases hat with
    | fresh => split at hkind <;> cases hkind
    | call hcall =>
      split at hkind
      · cases hkind
      · rename_i hr
        obtain ⟨m, res, hmessages, hm⟩ := r.messages_single id (Bool.eq_false_iff.mpr hr)
        rw [hmessages]
        exact .call (hcall.enqueue hm)
    | stream hstream =>
      split at hkind
      · rename_i hr
        obtain ⟨overlay, res, rfl⟩ := Reply.isStream_iff.mp hr
        rw [Reply.messages_stream]
        exact .stream (hstream.enqueue (Reply.streamMessages_error id overlay res))
      · cases hkind
    | abandoned ha habandoned => cases habandoned.replied

theorem Inv.read (h : Inv abandons s) {m : BrokerMessage} {messages : List BrokerMessage}
    (hincoming : s.incoming id = m :: messages) : Inv abandons { s with
      client := s.client.readMessage m, incoming := Function.update s.incoming id messages } := by
  have hm : m.RespondsTo id := h.messages id m (by rw [hincoming]; exact List.mem_cons_self ..)
  have hmessages : ∀ m ∈ Function.update s.incoming id messages id, m.RespondsTo id := by
    intro m hm
    rw [Function.update_self] at hm
    exact h.messages id m (by rw [hincoming]; exact List.mem_cons_of_mem _ hm)
  have hother {id' : UInt64} (hid : id' ≠ id) : Function.update s.incoming id messages id' =
    s.incoming id' := Function.update_of_ne hid ..
  have hat := h.at_id id
  rw [hincoming] at hat
  generalize hcalls : s.client.calls id = call, hstreams : s.client.streamCalls id = stream,
    hreplies : s.replies id = replies at hat
  cases hat with
  | call hcall =>
    obtain ⟨hentry, haddr, actor, hsend, hcall⟩ := hcall.read
    rw [readMessage_call hm hcalls hentry haddr hsend]
    refine h.of_sameExcept (sameExcept_setCall _ hother) hmessages ?_
    simp only [BrokerConnectionRemote.setCall, Function.update_self, hstreams, hreplies]
    exact .call hcall
  | stream hstream =>
    obtain ⟨hentry, haddr, actor, hsend, hstream⟩ := hstream.read
    rw [readMessage_stream hm hcalls hstreams hentry haddr hsend]
    refine h.of_sameExcept (sameExcept_setStreamCall _ hother) hmessages ?_
    simp only [BrokerConnectionRemote.setStreamCall, Function.update_self, hcalls, hreplies]
    exact .stream hstream
  | abandoned ha hstream =>
    obtain ⟨hentry, haddr, actor, hsend, hstream⟩ := hstream.read
    rw [readMessage_stream hm hcalls hstreams hentry haddr hsend]
    refine h.of_sameExcept (sameExcept_setStreamCall _ hother) hmessages ?_
    simp only [BrokerConnectionRemote.setStreamCall, Function.update_self, hcalls, hreplies]
    exact .abandoned ha hstream

theorem Inv.call (h : Inv abandons s) {c c' : Call} {a : CallStep} (hc : s.client.calls id = some c)
    (hs : c.step a = some c') : Inv abandons { s with client := s.client.setCall id c' } := by
  refine h.of_sameExcept (sameExcept_setCall _ fun _ => rfl) (h.messages id) ?_
  have hat := h.at_id id
  simp only [BrokerConnectionRemote.setCall, Function.update_self]
  rw [hc] at hat
  generalize s.client.streamCalls id = stream at hat
  cases hat with
  | call hcall => exact .call (hcall.step hs)

theorem Inv.stream (h : Inv abandons s) {c c' : StreamCall} {a : StreamStep}
    (hc : s.client.streamCalls id = some c) (hkeeps : ¬ abandons → a = .drop → c.ended = true)
    (hclean : abandons → c.held = false → a = .handle → c.actor.mailbox.head? = some .stop →
      s.incoming id = [])
    (hs : c.step a = some c') : Inv abandons { s with client := s.client.setStreamCall id c' } := by
  refine h.of_sameExcept (sameExcept_setStreamCall _ fun _ => rfl) (h.messages id) ?_
  have hat := h.at_id id
  simp only [BrokerConnectionRemote.setStreamCall, Function.update_self]
  rw [hc] at hat
  generalize s.client.calls id = call at hat
  cases hat with
  | stream hstream =>
    by_cases hdrop : a = .drop → c.ended = true
    · exact .stream (hstream.step hdrop hs)
    · rw [Classical.not_imp] at hdrop
      obtain ⟨rfl, hended⟩ := hdrop
      have ha : abandons := by
        by_contra ha
        exact hended (hkeeps ha rfl)
      exact .abandoned ha (hstream.abandoned hs)
  | abandoned ha hstream => exact .abandoned ha (hstream.step (hclean ha hstream.held_eq) hs)

theorem internal_read (hs : s.internal (.read id) = some s') : s.client.readerLoop = .running ∧
    ∃ m messages, s.incoming id = m :: messages ∧ s' = { s with
      client := s.client.readMessage m, incoming := Function.update s.incoming id messages } := by
  simp only [Remote.internal] at hs
  split at hs
  · rename_i m messages hloop hincoming
    cases hs
    exact ⟨hloop, m, messages, hincoming, rfl⟩
  · cases hs

theorem internal_call {a : CallStep} (hs : s.internal (.call id a) = some s') :
    ∃ c, s.client.calls id = some c ∧ ∃ c', c.step a = some c' ∧
      s' = { s with client := s.client.setCall id c' } := by
  obtain ⟨c, hc, hs⟩ := Option.bind_eq_some_iff.mp hs
  obtain ⟨c', hstep, hs⟩ := Option.bind_eq_some_iff.mp hs
  cases hs
  exact ⟨c, hc, c', hstep, rfl⟩

theorem internal_stream {a : StreamStep} (hs : s.internal (.stream id a) = some s') :
    ∃ c, s.client.streamCalls id = some c ∧ ∃ c', c.step a = some c' ∧
      s' = { s with client := s.client.setStreamCall id c' } := by
  obtain ⟨c, hc, hs⟩ := Option.bind_eq_some_iff.mp hs
  obtain ⟨c', hstep, hs⟩ := Option.bind_eq_some_iff.mp hs
  cases hs
  exact ⟨c, hc, c', hstep, rfl⟩

/-- One step of the client or of the broker. -/
theorem Inv.step (h : Inv abandons s) {a : Action} (hkeeps : ¬ abandons → s.keeps a = true)
    (hclean : abandons → s.clean a = true) (hs : s.step a = some s') : Inv abandons s' := by
  cases a with
  | request id stream => exact h.request hs
  | reply id r =>
    obtain ⟨hr, hs⟩ := Option.ite_none_right_eq_some.mp hs
    cases hs
    exact h.enqueue (Option.isNone_iff_eq_none.mp hr.1) hr.2
  | internal a =>
    cases a with
    | read id =>
      obtain ⟨-, m, messages, hincoming, rfl⟩ := internal_read hs
      exact h.read hincoming
    | call id a =>
      obtain ⟨c, hc, c', hstep, rfl⟩ := internal_call hs
      exact h.call hc hstep
    | stream id a =>
      obtain ⟨c, hc, c', hstep, rfl⟩ := internal_stream hs
      refine h.stream hc (fun ha hdrop => ?_) (fun ha hheld hhandle hmailbox => ?_) hstep
      · subst hdrop
        exact ended_of_keeps (hkeeps ha) hc
      · subst hhandle
        exact (clean_iff hc).mp (hclean ha) hheld hmailbox

end Remote

end Lofire
