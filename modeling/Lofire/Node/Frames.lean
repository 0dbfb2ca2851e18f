import Lofire.Broker.SameOutcome
import Lofire.Node.ConnectionLoop

/-!
# The order of the frames of a connection

The loop and the task of a connection are two writers to one socket. As long as the socket is open
they lose no frame, and whatever the order in which they go on, the frames that answer one frame of
the client are sent in the order in which the handler gave them (`answers_in_order`).
-/

namespace Lofire

open Lib Lib.Outbox

/-- The frames that answer a frame. -/
def ProtocolHandler.Reply.frames (reply : ProtocolHandler.Reply) : List Bytes :=
  match reply.frame with
  | .ok r => r :: (reply.later.map Later.frames).getD []
  | .error _ => []

/-- What the loop is about to send, as an answer to the frame `k`. -/
def LoopState.direct (k : Nat) : LoopState → Option Numbered
  | .replying frame _ => some (k, frame)
  | _ => none

/-- What it has to put in the channel after that. -/
def LoopState.behind (k : Nat) : LoopState → List Numbered
  | .replying _ later => ((later.map Later.frames).getD []).map (k, ·)
  | .awaiting frames _ => frames.map (k, ·)
  | _ => []

@[simp] theorem LoopState.direct_after (k : Nat) (later : Option Later) :
    (LoopState.after later).direct k = none := by
  cases later <;> rfl

@[simp] theorem LoopState.behind_after (k : Nat) (later : Option Later) :
    (LoopState.after later).behind k = ((later.map Later.frames).getD []).map (k, ·) := by
  cases later <;> rfl

/-- What the task is about to send. -/
def FramesTask.slot : FramesTask → Option Numbered
  | .sending frame => some frame
  | _ => none

namespace ConnectionLoop

variable {P : Primitives} {W : Wire} {c c' : ConnectionLoop}

/-! ## The two writers -/

/-- The frames that the loop and the task have to send. -/
def outbox (c : ConnectionLoop) : Outbox Numbered where
  direct := c.loop.direct c.number
  behind := c.loop.behind c.number
  queue := c.channel
  slot := c.task.slot
  out := c.sent

/-- The frames that answer the frame `k`. -/
def answer (c : ConnectionLoop) (k : Nat) : List Numbered := ((c.answers[k]?).getD []).map (k, ·)

theorem outbox_idle (h : c.loop = .receiving) : c.outbox.Idle := by
  unfold Idle outbox
  rw [h]
  exact ⟨rfl, rfl⟩

/-- The loop accepts the frames of a reply. -/
theorem outbox_reply (c : ConnectionLoop) (handler : ProtocolHandler) (r : Bytes)
    (later : Option Later) (frames : List Bytes) : outbox { c with
      handler, loop := .replying r later, answers := c.answers ++ [frames] } =
    c.outbox.accept (c.answers.length, r)
      (((later.map Later.frames).getD []).map (c.answers.length, ·)) := by
  simp [outbox, accept, number, LoopState.direct, LoopState.behind]

/-- While the socket is open, the loop loses no frame. -/
theorem GoesOn.outbox (h : GoesOn c c') (hopen : c'.sinkOpen = true) (htask : c.task ≠ .ended) :
    Step c.outbox c'.outbox ∨ c'.outbox = c.outbox := by
  cases h with
  | @reply frame later hloop _ =>
    left
    have hdirect : c.outbox.direct = some (c.number, frame) := by
      rw [ConnectionLoop.outbox, hloop]
      rfl
    convert Step.write hdirect using 1
    simp only [ConnectionLoop.outbox, hloop, LoopState.direct_after, LoopState.behind_after]
    rfl
  | failed hloop hclosed =>
    rw [hclosed] at hopen
    cases hopen
  | @enqueue frame frames code hloop _ =>
    left
    have hdirect : c.outbox.direct = none := by
      rw [ConnectionLoop.outbox, hloop]
      rfl
    have hbehind : c.outbox.behind = (c.number, frame) :: frames.map (c.number, ·) := by
      rw [ConnectionLoop.outbox, hloop]
      rfl
    convert Step.enqueue hdirect hbehind using 1
    simp [ConnectionLoop.outbox, hloop, LoopState.direct, LoopState.behind, number]
  | dropped _ hended => exact absurd hended htask
  | next hloop _ =>
    right
    simp [ConnectionLoop.outbox, hloop, LoopState.direct, LoopState.behind]
  | errorCode hloop _ =>
    right
    simp [ConnectionLoop.outbox, hloop, LoopState.direct, LoopState.behind]
  | close hloop => cases hopen

/-- Nor does the task. -/
theorem TaskGoesOn.outbox (h : TaskGoesOn c c') (hopen : c'.sinkOpen = true)
    (hloop : c.loop ≠ .ended) : Step c.outbox c'.outbox := by
  cases h with
  | @take frame channel htask hchannel =>
    have hslot : c.outbox.slot = none := by
      rw [ConnectionLoop.outbox, htask]
      rfl
    exact Step.take hslot (show c.outbox.queue = frame :: channel from hchannel)
  | drained _ _ hended => exact absurd hended hloop
  | @send frame htask _ =>
    have hslot : c.outbox.slot = some frame := by
      rw [ConnectionLoop.outbox, htask]
      rfl
    exact Step.put hslot
  | failed _ hclosed =>
    rw [hclosed] at hopen
    cases hopen
  | close => cases hopen

/-! ## What every step keeps -/

structure Inv (c : ConnectionLoop) : Prop where
  task : c.sinkOpen = true → c.task ≠ .leaving ∧ c.task ≠ .ended
  loop : c.sinkOpen = true → c.loop ≠ .ended
  separate : c.sinkOpen = true → Separate Prod.fst c.outbox
  stream : c.sinkOpen = true → ∀ k, stream Prod.fst c.outbox k = c.answer k
  sent : ∀ k, withKey Prod.fst k c.sent <+: c.answer k

theorem inv_new : Inv new where
  task _ := ⟨nofun, nofun⟩
  loop _ := nofun
  separate _ := separate_empty
  stream _ _ := rfl
  sent _ := List.nil_prefix

/-- The socket stays open only if it was, and while it is open no frame is sent but by the
writers. -/
theorem Inv.of_closed (h : Inv c) (hclosed : c'.sinkOpen = false) (hsent : c'.sent = c.sent)
    (hanswers : c'.answers = c.answers) : Inv c' where
  task hopen := by rw [hclosed] at hopen; cases hopen
  loop hopen := by rw [hclosed] at hopen; cases hopen
  separate hopen := by rw [hclosed] at hopen; cases hopen
  stream hopen := by rw [hclosed] at hopen; cases hopen
  sent k := by
    rw [hsent, answer, hanswers]
    exact h.sent k

/-- A step of the writers, or one that sends nothing. -/
theorem Inv.of_outbox (h : Inv c) (hopen : c.sinkOpen = true)
    (htask : c'.task ≠ .leaving ∧ c'.task ≠ .ended) (hloop : c'.loop ≠ .ended)
    (hanswers : c'.answers = c.answers)
    (houtbox : Step c.outbox c'.outbox ∨ c'.outbox = c.outbox) : Inv c' := by
  have hstream : ∀ k, Outbox.stream Prod.fst c'.outbox k = c'.answer k := by
    intro k
    rw [answer, hanswers]
    obtain hstep | hsame := houtbox
    · rw [stream_step (h.separate hopen) hstep]
      exact h.stream hopen k
    · rw [hsame]
      exact h.stream hopen k
  refine ⟨fun _ => htask, fun _ => hloop, fun _ => ?_, fun _ => hstream, fun k => ?_⟩
  · obtain hstep | hsame := houtbox
    · exact (h.separate hopen).step hstep
    · rw [hsame]
      exact h.separate hopen
  · rw [← hstream]
    exact withKey_out_prefix c'.outbox k

theorem answer_append (answers : List (List Bytes)) (frames : List Bytes) (k : Nat) :
    (((answers ++ [frames])[k]?).getD []).map (Prod.mk k) =
      ((answers[k]?).getD []).map (Prod.mk k) ++
        withKey Prod.fst k (frames.map (Prod.mk answers.length)) := by
  rcases lt_trichotomy k answers.length with hk | rfl | hk
  · rw [List.getElem?_append_left hk, withKey_eq_nil (by simp; omega), List.append_nil]
  · rw [withKey_eq_self (by simp)]
    simp
  · have hlen : (answers ++ [frames]).length ≤ k := by simp; omega
    rw [List.getElem?_eq_none hlen, List.getElem?_eq_none (by omega),
      withKey_eq_nil (by simp; omega)]
    rfl

/-- No frame is on its way that answers a frame which was not handled. -/
theorem Inv.number_lt (h : Inv c) (hopen : c.sinkOpen = true) {n : Numbered}
    (hn : n ∈ c.outbox.out ++ c.outbox.pending) : n.1 < c.answers.length := by
  by_contra hle
  have hstream := h.stream hopen n.1
  rw [answer, List.getElem?_eq_none (by omega)] at hstream
  have hmem : n ∈ Outbox.stream Prod.fst c.outbox n.1 :=
    List.mem_filter.mpr ⟨hn, decide_eq_true rfl⟩
  rw [hstream] at hmem
  cases hmem

theorem Inv.handle (h : Inv c) {E : Env} {sv sv' : BrokerServer} {data : Bytes}
    (hloop : c.loop = .receiving) (hs : c.handle P W E sv data = some (c', sv')) : Inv c' := by
  obtain ⟨reply, handler, -, ⟨e, -, rfl⟩ | ⟨r, -, rfl⟩⟩ := handle_eq_some hs
  · have hanswer : ∀ k, answer { c with
        handler, loop := .leaving, answers := c.answers ++ [[]] } k = c.answer k := by
      intro k
      exact (answer_append c.answers [] k).trans (List.append_nil _)
    have houtbox : outbox { c with
        handler, loop := .leaving, answers := c.answers ++ [[]] } = c.outbox := by
      simp [outbox, hloop, LoopState.direct, LoopState.behind]
    refine ⟨h.task, fun _ => nofun, fun hopen => ?_, fun hopen k => ?_, fun k => ?_⟩
    · rw [houtbox]
      exact h.separate hopen
    · rw [houtbox, hanswer]
      exact h.stream hopen k
    · rw [hanswer]
      exact h.sent k
  · let n := c.answers.length
    let later := (reply.later.map Later.frames).getD []
    let c₁ : ConnectionLoop := { c with
      handler, loop := .replying r reply.later, answers := c.answers ++ [r :: later] }
    have houtbox : c₁.outbox = c.outbox.accept (n, r) (later.map (n, ·)) :=
      outbox_reply c handler r reply.later (r :: later)
    have hanswer : ∀ k, c₁.answer k = c.answer k ++ withKey Prod.fst k ((r :: later).map (n, ·)) :=
      fun k => answer_append c.answers (r :: later) k
    refine ⟨h.task, fun _ => nofun, fun hopen => ?_, fun hopen k => ?_, fun k => ?_⟩
    · show Separate Prod.fst c₁.outbox
      rw [houtbox]
      refine .accept (fun m hm => ?_) _
      have hlt := h.number_lt hopen (n := m)
        (List.mem_append_right _ (List.mem_append_left _ hm))
      exact Nat.ne_of_lt hlt
    · show Outbox.stream Prod.fst c₁.outbox k = c₁.answer k
      rw [houtbox, stream_accept (outbox_idle hloop), h.stream hopen, hanswer]
      rfl
    · show withKey Prod.fst k c.sent <+: c₁.answer k
      rw [hanswer]
      exact (h.sent k).trans (List.prefix_append ..)

/-- The loop is left, and nothing is to be sent. -/
theorem Inv.leave (h : Inv c) (hloop : c.loop = .receiving) : Inv { c with loop := .leaving } := by
  have houtbox : outbox { c with loop := .leaving } = c.outbox := by
    simp [outbox, hloop, LoopState.direct, LoopState.behind]
  refine ⟨h.task, fun _ => nofun, fun hopen => ?_, fun hopen k => ?_, h.sent⟩
  · rw [houtbox]
    exact h.separate hopen
  · rw [houtbox]
    exact h.stream hopen k

theorem Inv.receive (h : Inv c) {E : Env} {sv sv' : BrokerServer} {msg : Message}
    (hs : c.receive P W E sv msg = some (c', sv')) : Inv c' := by
  obtain ⟨hloop, ⟨data, -, hs⟩ | ⟨-, rfl, -⟩ | ⟨-, rfl, -⟩⟩ := receive_eq_some hs
  · exact h.handle hloop hs
  · exact h.leave hloop
  · exact h

theorem Inv.goOn (h : Inv c) (hs : c.goOn = some c') : Inv c' := by
  have hgoes := goesOn hs
  have hanswers : c'.answers = c.answers := by cases hgoes <;> rfl
  cases hopen : c'.sinkOpen with
  | false =>
    refine h.of_closed hopen ?_ hanswers
    cases hgoes with
    | reply _ hopen' => rw [hopen'] at hopen; cases hopen
    | _ => rfl
  | true =>
    have hopen' : c.sinkOpen = true := by
      cases hgoes with
      | close => cases hopen
      | _ => exact hopen
    have htask := h.task hopen'
    refine h.of_outbox hopen' ?_ ?_ hanswers (hgoes.outbox hopen htask.2)
    · cases hgoes <;> exact htask
    · cases hgoes with
      | @reply _ later => cases later <;> exact nofun
      | close => cases hopen
      | _ => exact nofun

theorem Inv.goOnTask (h : Inv c) (hs : c.goOnTask = some c') : Inv c' := by
  have hgoes := taskGoesOn hs
  have hanswers : c'.answers = c.answers := by cases hgoes <;> rfl
  cases hopen : c'.sinkOpen with
  | false =>
    refine h.of_closed hopen ?_ hanswers
    cases hgoes with
    | send _ hopen' => rw [hopen'] at hopen; cases hopen
    | _ => rfl
  | true =>
    have hopen' : c.sinkOpen = true := by
      cases hgoes with
      | close => cases hopen
      | _ => exact hopen
    have hloop := h.loop hopen'
    refine h.of_outbox hopen' ?_ ?_ hanswers (.inl (hgoes.outbox hopen hloop))
    · cases hgoes with
      | drained _ _ hended => exact absurd hended hloop
      | failed _ hclosed => rw [hclosed] at hopen'; cases hopen'
      | close => cases hopen
      | _ => exact ⟨nofun, nofun⟩
    · cases hgoes <;> exact hloop

theorem Inv.step (h : Inv c) {a : Action} (hs : c.step P W a = some c') : Inv c' := by
  cases a with
  | receive msg env broker =>
    obtain ⟨⟨c₁, sv⟩, hreceive, rfl⟩ := Option.map_eq_some_iff.mp hs
    exact h.receive hreceive
  | hangUp =>
    obtain ⟨hloop, rfl⟩ := hangUp_eq_some hs
    exact h.leave hloop
  | loop => exact h.goOn hs
  | task => exact h.goOnTask hs
  | fail =>
    cases hs
    exact h.of_closed rfl rfl rfl

/-! ## The loop and the task come to a rest -/

def LoopState.work : LoopState → Nat
  | .receiving => 2
  | .replying _ later => 5 + 4 * ((later.map Later.frames).getD []).length
  | .awaiting frames _ => 3 + 4 * frames.length
  | .leaving => 1
  | .ended => 0

def FramesTask.work : FramesTask → Nat
  | .receiving => 2
  | .sending _ => 3
  | .leaving => 1
  | .ended => 0

/-- A bound on the steps of the loop and the task. -/
def work (c : ConnectionLoop) : Nat :=
  LoopState.work c.loop + 2 * c.channel.length + FramesTask.work c.task

theorem GoesOn.work_lt (h : GoesOn c c') : c'.work < c.work := by
  cases h with
  | @reply frame later hloop _ =>
    have hlater : LoopState.work (.after later) <
        5 + 4 * ((later.map Later.frames).getD []).length := by
      cases later <;> simp [LoopState.after, LoopState.work]
    simp only [work, hloop, LoopState.work] at hlater ⊢
    omega
  | failed hloop _ | dropped hloop _ | next hloop _ | errorCode hloop _ | close hloop =>
    simp only [work, hloop, LoopState.work, List.length_cons, List.length_nil]
    omega
  | enqueue hloop _ =>
    simp only [work, hloop, LoopState.work, List.length_cons, List.length_append, List.length_nil]
    omega

theorem TaskGoesOn.work_lt (h : TaskGoesOn c c') : c'.work < c.work := by
  cases h with
  | take htask hchannel =>
    simp only [work, htask, hchannel, FramesTask.work, List.length_cons]
    omega
  | drained htask _ _ | send htask _ | failed htask _ | close htask =>
    simp only [work, htask, FramesTask.work]
    omega

/-- A step of the loop or of the task, which the client has no part in. -/
def Action.isOwn : Action → Bool
  | .loop | .task => true
  | _ => false

theorem work_lt_of_isOwn {a : Action} (ha : a.isOwn = true) (hs : c.step P W a = some c') :
    c'.work < c.work := by
  cases a with
  | loop => exact (goesOn hs).work_lt
  | task => exact (taskGoesOn hs).work_lt
  | _ => cases ha

/-- They make finitely many steps. -/
theorem length_le_work {as : List Action} (has : ∀ a ∈ as, a.isOwn = true)
    (hrun : c.run P W as = some c') : as.length ≤ c.work := by
  induction as generalizing c with
  | nil => exact Nat.zero_le _
  | cons a as ih =>
    obtain ⟨c₁, hs, hrun⟩ := Steps.run_cons.mp hrun
    have hlt := work_lt_of_isOwn (has a List.mem_cons_self) hs
    have hle := ih (fun b hb => has b (List.mem_cons_of_mem _ hb)) hrun
    rw [List.length_cons]
    omega

/-- Where neither of them can go on, everything is sent. -/
theorem pending_eq_nil (hopen : c.sinkOpen = true) (hnot : c.loop ≠ .ended)
    (hrunning : c.task ≠ .leaving ∧ c.task ≠ .ended) (hloop : c.goOn = none)
    (htask : c.goOnTask = none) : c.outbox.pending = [] := by
  have hreceiving : c.loop = .receiving := by
    unfold ConnectionLoop.goOn at hloop
    split at hloop
    · assumption
    · cases (if_pos hopen).symm.trans hloop
    · split at hloop <;> cases hloop
    · split at hloop <;> cases hloop
    · cases hloop
    · exact absurd ‹c.loop = .ended› hnot
  obtain ⟨hleaving, hended⟩ := hrunning
  refine pending_eq_nil_iff.mpr ⟨outbox_idle hreceiving, ?_⟩
  unfold ConnectionLoop.goOnTask at htask
  split at htask
  · rename_i hstate
    split at htask
    · cases htask
    · rename_i hchannel
      refine ⟨hchannel, ?_⟩
      rw [outbox, hstate]
      rfl
  · cases (if_pos hopen).symm.trans htask
  · exact absurd ‹c.task = .leaving› hleaving
  · exact absurd ‹c.task = .ended› hended

/-- The frames that were sent in answer to the frame `k`. -/
def sentFor (c : ConnectionLoop) (k : Nat) : List Bytes :=
  (withKey Prod.fst k c.sent).map Prod.snd

theorem map_snd_answer (c : ConnectionLoop) (k : Nat) :
    (c.answer k).map Prod.snd = (c.answers[k]?).getD [] := by
  simp [answer, Function.comp_def]

/-- The frames that the handler gave in answer to the frame `k`. -/
def answersTo (past : List Exchange) (k : Nat) : List Bytes :=
  ((past.map fun x => x.2.frames)[k]?).getD []

/-- The frames of a connection are handled one after the other, and the histories are those of the
handler. -/
theorem run_handled {as : List Action} (hrun : c.run P W as = some c') :
    ∃ past, c.handler.run P W (as.filterMap Action.incoming) = .ok (past, c'.handler) ∧
      c'.answers = c.answers ++ past.map fun x => x.2.frames := by
  induction as generalizing c with
  | nil =>
    cases hrun
    exact ⟨[], rfl, by simp⟩
  | cons a as ih =>
    obtain ⟨c₁, hs, hrun⟩ := Steps.run_cons.mp hrun
    obtain ⟨past, hpast, hanswers⟩ := ih hrun
    -- a step that handles no frame
    have hidle (ha : a.incoming = none) (hhandler : c₁.handler = c.handler)
        (hsame : c₁.answers = c.answers) : ∃ past,
        c.handler.run P W ((a :: as).filterMap Action.incoming) = .ok (past, c'.handler) ∧
          c'.answers = c.answers ++ past.map fun x => x.2.frames := by
      rw [List.filterMap_cons_none ha, ← hhandler, ← hsame]
      exact ⟨past, hpast, hanswers⟩
    cases a with
    | receive msg env broker =>
      obtain ⟨⟨c₂, sv⟩, hreceive, rfl⟩ := Option.map_eq_some_iff.mp hs
      obtain ⟨-, ⟨data, rfl, hhandle⟩ | ⟨rfl, rfl, -⟩ | ⟨rfl, rfl, -⟩⟩ := receive_eq_some hreceive
      · obtain ⟨reply, handler, hincoming, hc₂⟩ := handle_eq_some hhandle
        refine ⟨(⟨data, env, broker⟩, reply) :: past, ?_, ?_⟩
        · have hhandler : c₂.handler = handler := by
            obtain ⟨e, -, rfl⟩ | ⟨r, -, rfl⟩ := hc₂ <;> rfl
          rw [hhandler] at hpast
          show ProtocolHandler.run P W c.handler (⟨data, env, broker⟩ :: _) = _
          simp only [ProtocolHandler.run, hincoming, bind, Except.bind, hpast, pure, Except.pure]
        · rw [hanswers, List.map_cons]
          obtain ⟨e, he, rfl⟩ | ⟨r, hr, rfl⟩ := hc₂
          · simp [ProtocolHandler.Reply.frames, he]
          · simp [ProtocolHandler.Reply.frames, hr]
      · exact hidle rfl rfl rfl
      · exact hidle rfl rfl rfl
    | hangUp =>
      obtain ⟨-, rfl⟩ := hangUp_eq_some hs
      exact hidle rfl rfl rfl
    | loop =>
      have hgoes := goesOn hs
      exact hidle rfl (by cases hgoes <;> rfl) (by cases hgoes <;> rfl)
    | task =>
      have hgoes := taskGoesOn hs
      exact hidle rfl (by cases hgoes <;> rfl) (by cases hgoes <;> rfl)
    | fail =>
      cases hs
      exact hidle rfl rfl rfl

/-- In every run of a connection the handler gets the frames in order, and the frames sent in answer
to one of them are a beginning of those that the handler gave, in its order and none of them twice.
Left to themselves, the loop and the task come to a rest, and if the socket is open then, every
frame has been sent. -/
theorem answers_in_order {as : List Action} (hrun : new.run P W as = some c) :
    ∃ past, ProtocolHandler.new.run P W (as.filterMap Action.incoming) = .ok (past, c.handler) ∧
      (∀ k, c.sentFor k <+: answersTo past k) ∧
      ∀ more c', (∀ a ∈ more, a.isOwn = true) → c.run P W more = some c' →
        more.length ≤ c.work ∧ (c'.sinkOpen = true → c'.goOn = none → c'.goOnTask = none →
          ∀ k, c'.sentFor k = answersTo past k) := by
  obtain ⟨past, hpast, hanswers⟩ := run_handled hrun
  have hinv : Inv c := Steps.run_invariant (fun h hs => Inv.step h hs) inv_new hrun
  have hanswer : ∀ k, (c.answers[k]?).getD [] = answersTo past k := by
    intro k
    rw [hanswers]
    rfl
  refine ⟨past, hpast, fun k => ?_, fun more c' hown hmore => ?_⟩
  · rw [← hanswer, ← map_snd_answer]
    exact (hinv.sent k).map Prod.snd
  · refine ⟨length_le_work hown hmore, fun hopen hloop htask k => ?_⟩
    have hinv' : Inv c' := Steps.run_invariant (fun h hs => Inv.step h hs) hinv hmore
    obtain ⟨past', hpast', hanswers'⟩ := run_handled hmore
    have hno : more.filterMap Action.incoming = [] := by
      refine List.filterMap_eq_nil_iff.mpr fun a ha => ?_
      have hisOwn := hown a ha
      cases a with
      | loop | task => rfl
      | _ => cases hisOwn
    rw [hno] at hpast'
    obtain ⟨rfl, -⟩ := Prod.mk.inj (Except.ok.inj hpast')
    rw [List.map_nil, List.append_nil] at hanswers'
    have hpending : c'.outbox.pending = [] :=
      pending_eq_nil hopen (hinv'.loop hopen) (hinv'.task hopen) hloop htask
    have hall : stream Prod.fst c'.outbox k = withKey Prod.fst k c'.sent :=
      stream_eq_of_pending hpending k
    rw [hinv'.stream hopen] at hall
    exact (congrArg (List.map Prod.snd) hall).symm.trans
      ((map_snd_answer c' k).trans (by rw [hanswers', hanswer]))

end ConnectionLoop

namespace TwoBlocks

def client : PubKey := ⟨.replicate 32 7⟩

/-- The nonce is the one of `env`. -/
def clientAuth : ClientAuth :=
  ⟨⟨user, client, List.replicate 32 0⟩, ⟨.replicate 32 8, .replicate 32 8⟩⟩

def getBlocks : BrokerOverlayRequestContent := .blockGet ⟨root.getId primitives, true, none⟩

/-- The client authenticates, asks for the two blocks and wants an object to be deleted. The reply
to the last request is sent before the second block. -/
def connection : List ConnectionLoop.Action :=
  [.receive (.binary (wire.startProtocol.toVec .auth)) env broker, .loop,
    .receive (.binary (wire.clientAuth.toVec clientAuth)) env broker, .loop,
    .receive (.binary (wire.brokerMessage.toVec (requestMessage 1 overlay getBlocks))) env broker,
    .loop, .loop, .loop, .loop, .task,
    .receive (.binary (wire.brokerMessage.toVec (requestMessage 2 overlay (.objectDel overlay))))
      env broker,
    .loop, .task, .task, .task]

end TwoBlocks

open ConnectionLoop TwoBlocks in
theorem ConnectionLoop.answers_in_order_twoBlocks :
    ∃ c, new.run primitives wire connection = some c ∧ c.sent.map Prod.fst = [0, 1, 2, 3, 2, 2] ∧
      ∃ past, ProtocolHandler.new.run primitives wire (connection.filterMap Action.incoming) =
        .ok (past, c.handler) ∧ ∀ k, c.sentFor k <+: answersTo past k := by
  have hsent : (new.run primitives wire connection).map (fun c => c.sent.map Prod.fst) =
      some [0, 1, 2, 3, 2, 2] := by decide +kernel
  obtain ⟨c, hrun, hc⟩ := Option.map_eq_some_iff.mp hsent
  obtain ⟨past, hpast, hprefix, -⟩ := answers_in_order hrun
  exact ⟨c, hrun, hc, past, hpast, hprefix⟩

end Lofire
