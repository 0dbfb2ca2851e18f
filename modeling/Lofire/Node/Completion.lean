import Lofire.Node.Refinement

/-!
# The outcomes of a session

In every run of a session the callers see the outcomes of the local calls, and what the broker has
served, the loop and the task of the node, the reader loop of the client and the caller bring to its
end (`session_sameOutcome`).
-/

namespace Lofire

open Lib Lib.Outbox

section

variable {P : Primitives} {W : Wire} {user : PubKey}

namespace RemoteBroker

variable {s s' : RemoteBroker}

/-- No id is used twice. -/
theorem Inv.asked_step (h : Inv P W user s) {a : Action} (hs : s.step P W user a = some s')
    {id : UInt64} {x : OverlayId × BrokerOverlayRequestContent} (hasked : s.asked id = some x) :
    s'.asked id = some x := by
  cases a with
  | request id' overlay content =>
    obtain ⟨-, hs⟩ := Option.ite_none_right_eq_some.mp hs
    obtain ⟨remote, hremote, hs⟩ := Option.bind_eq_some_iff.mp hs
    cases hs
    obtain ⟨hcalls, hstreams, -⟩ := Remote.request_eq_some hremote
    have hid : id ≠ id' := by
      rintro rfl
      obtain ⟨-, hcall⟩ | ⟨-, hcall⟩ := h.asked hasked
      · rw [hcalls] at hcall
        cases hcall
      · rw [hstreams] at hcall
        cases hcall
    exact (Function.update_of_ne hid ..).trans hasked
  | serve E =>
    obtain ⟨_, _, _, _, _, _, _, -, -, rfl⟩ := serve_eq_some hs
    exact hasked
  | internal a =>
    obtain ⟨remote, -, rfl⟩ := Option.map_eq_some_iff.mp hs
    exact hasked

theorem Inv.asked_of_mem (hW : W.MessageLaws) (h : Inv P W user s) {as : List Action}
    (halong : Steps.Along (RemoteBroker.step P W user) (fun s a => s.keeps a = true) s as)
    (hrun : s.run P W user as = some s') {id : UInt64} {overlay : OverlayId}
    {content : BrokerOverlayRequestContent} (hmem : .request id overlay content ∈ as) :
    s'.asked id = some (overlay, content) := by
  induction as generalizing s with
  | nil => cases hmem
  | cons a as ih =>
    obtain ⟨s₁, hs, hrest⟩ := Steps.run_cons.mp hrun
    obtain ⟨hkeeps, hkept⟩ := (Steps.along_cons hs).mp halong
    have h₁ := h.step hW hkeeps hs
    rcases List.mem_cons.mp hmem with rfl | hmem
    · have hasked : s₁.asked id = some (overlay, content) := by
        obtain ⟨-, hs⟩ := Option.ite_none_right_eq_some.mp hs
        obtain ⟨remote, -, hs⟩ := Option.bind_eq_some_iff.mp hs
        cases hs
        exact Function.update_self ..
      have hboth := Steps.run_invariant_along
        (I := fun s => Inv P W user s ∧ s.asked id = some (overlay, content))
        (fun hI ha hs => ⟨hI.1.step hW ha hs, hI.1.asked_step hs hI.2⟩) ⟨h₁, hasked⟩ hkept hrest
      exact hboth.2
    · exact ih h₁ hkept hrest hmem

end RemoteBroker

namespace Session

variable {s s' : Session} {r r' : RemoteBroker}

/-! ## What was served is brought to its end -/

/-- A step of the node, which only sends, of the reader loop, or of the request `id` at the
client. -/
def Action.isOwn (id : UInt64) : Action → Bool
  | .loop | .task | .read => true
  | .call id' _ | .stream id' _ => id' = id
  | _ => false

/-- A state that the session reaches by itself, with a state of the remote broker that has served
the same requests. -/
def Reaches (P : Primitives) (W : Wire) (user : PubKey) (id : UInt64) (s : Session)
    (r : RemoteBroker) (Q : Session → RemoteBroker → Prop) : Prop :=
  ∃ as s' r', (∀ a ∈ as, Action.isOwn id a = true) ∧ s.run P W as = some s' ∧
    Refines W user s' r' ∧ RemoteBroker.Inv P W user r' ∧ r'.asked = r.asked ∧
    r'.served = r.served ∧ (r'.remote.replies = r.remote.replies) ∧ Q s' r'

theorem Reaches.here {id : UInt64} {Q : Session → RemoteBroker → Prop} (h : Refines W user s r)
    (hinv : RemoteBroker.Inv P W user r) (hQ : Q s r) : Reaches P W user id s r Q :=
  ⟨[], s, r, by simp, rfl, h, hinv, rfl, rfl, rfl, hQ⟩

theorem Reaches.cons {id : UInt64} {Q : Session → RemoteBroker → Prop} {a : Action}
    (remote : Remote) (ha : Action.isOwn id a = true) (hs : s.step P W a = some s')
    (hreplies : remote.replies = r.remote.replies)
    (h : Reaches P W user id s' { r with remote } Q) : Reaches P W user id s r Q := by
  obtain ⟨as, s'', r'', has, hrun, h', hinv', hasked, hserved, hreplies', hQ⟩ := h
  refine ⟨a :: as, s'', r'', ?_, Steps.run_cons.mpr ⟨s', hs, hrun⟩, h', hinv', hasked, hserved,
    hreplies'.trans hreplies, hQ⟩
  intro a' ha'
  rcases List.mem_cons.mp ha' with rfl | ha'
  · exact ha
  · exact has a' ha'

theorem Reaches.trans {id : UInt64} {Q Q' : Session → RemoteBroker → Prop}
    (h : Reaches P W user id s r Q)
    (hQ : ∀ s' r', Refines W user s' r' → RemoteBroker.Inv P W user r' →
      r'.remote.replies = r.remote.replies → Q s' r' → Reaches P W user id s' r' Q') :
    Reaches P W user id s r Q' := by
  obtain ⟨as, s', r', has, hrun, h', hinv', hasked, hserved, hreplies, hq⟩ := h
  obtain ⟨as', s'', r'', has', hrun', h'', hinv'', hasked', hserved', hreplies', hq'⟩ :=
    hQ s' r' h' hinv' hreplies hq
  refine ⟨as ++ as', s'', r'', ?_, ?_, h'', hinv'', hasked'.trans hasked,
    hserved'.trans hserved, hreplies'.trans hreplies, hq'⟩
  · intro a ha
    rcases List.mem_append.mp ha with ha | ha
    · exact has a ha
    · exact has' a ha
  · exact Steps.run_append.mpr ⟨s', hrun, hrun'⟩

theorem Reaches.mono {id : UInt64} {Q Q' : Session → RemoteBroker → Prop}
    (h : Reaches P W user id s r Q) (hQ : ∀ s' r', Refines W user s' r' →
      RemoteBroker.Inv P W user r' → r'.asked = r.asked → Q s' r' → Q' s' r') :
    Reaches P W user id s r Q' := by
  obtain ⟨as, s', r', has, hrun, h', hinv', hasked, hserved, hreplies, hq⟩ := h
  exact ⟨as, s', r', has, hrun, h', hinv', hasked, hserved, hreplies, hQ s' r' h' hinv' hasked hq⟩

/-- The loop and the task send what they have to send. -/
theorem Refines.rest (id : UInt64) (h : Refines W user s r) (hinv : RemoteBroker.Inv P W user r) :
    Reaches P W user id s r fun s' _ => s'.node.outbox.pending = [] := by
  generalize hwork : s.node.work = n
  induction n using Nat.strong_induction_on generalizing s with
  | _ n ih =>
    cases hloop : s.node.goOn with
    | some node =>
      have hlt : node.work < n := hwork ▸ (ConnectionLoop.goesOn hloop).work_lt
      have hs : s.step P W .loop = some { s with node } :=
        Option.map_eq_some_iff.mpr ⟨node, hloop, rfl⟩
      exact .cons r.remote rfl hs rfl (ih _ hlt (h.loop_step hloop) rfl)
    | none =>
    cases htask : s.node.goOnTask with
    | some node =>
      have hlt : node.work < n := hwork ▸ (ConnectionLoop.taskGoesOn htask).work_lt
      have hs : s.step P W .task = some { s with node } :=
        Option.map_eq_some_iff.mpr ⟨node, htask, rfl⟩
      exact .cons r.remote rfl hs rfl (ih _ hlt (h.task_step htask) rfl)
    | none =>
      exact .here h hinv
        (ConnectionLoop.pending_eq_nil h.sinkOpen h.loop_ne_ended h.task hloop htask)

/-- The reader loop reads what was sent. -/
theorem Refines.readAll (id : UInt64) (h : Refines W user s r) (hinv : RemoteBroker.Inv P W user r)
    (hpending : s.node.outbox.pending = []) :
    Reaches P W user id s r fun s' _ => s'.unread = [] := by
  generalize hn : s.node.sent.length - s.read = n
  induction n generalizing s r with
  | zero =>
    refine .here h hinv ?_
    show s.node.sent.drop s.read ++ s.node.outbox.pending = []
    rw [hpending, List.drop_eq_nil_of_le (by omega)]
    rfl
  | succ n ih =>
    have hlt : s.read < s.node.sent.length := by omega
    have hrunning : s.client.readerLoop = .running := by
      rw [← h.client]
      exact hinv.remote.running
    have hread : ∃ s', s.readFrame W = some s' ∧ s'.node = s.node ∧ s'.read = s.read + 1 := by
      have hframe : s.nextFrame = some s.node.sent[s.read].2 := by
        unfold nextFrame
        rw [List.getElem?_eq_getElem hlt]
      unfold readFrame
      rw [h.isOpen, hrunning, hframe]
      exact ⟨_, rfl, rfl, rfl⟩
    obtain ⟨s', hs, hnode, hread⟩ := hread
    obtain ⟨id', remote, hremote, h'⟩ := h.read_step hs
    refine .cons (a := .read) remote rfl hs (Remote.internal_replies hremote)
      (ih h' (hinv.internal rfl hremote) (by rw [hnode]; exact hpending) ?_)
    rw [hnode, hread]
    omega

/-- A step of the remote broker for the request `id` that reads nothing. -/
theorem Refines.internal (h : Refines W user s r) {id : UInt64} {a : Remote.Internal}
    {remote : Remote} (ha : (Remote.Action.internal a).id = id) (hread : a ≠ .read id)
    (hs : r.remote.internal a = some remote) :
    ∃ b s', Action.isOwn id b = true ∧ s.step P W b = some s' ∧
      Refines W user s' { r with remote } ∧ s'.unread = s.unread := by
  cases a with
  | read id' =>
    cases ha
    exact absurd rfl hread
  | call id' a =>
    cases ha
    obtain ⟨c, hc, c', hstep, rfl⟩ := Remote.internal_call hs
    refine ⟨.call id' a, { s with client := s.client.setCall id' c' }, decide_eq_true rfl, ?_, ?_,
      rfl⟩
    · show ((s.client.calls id').bind fun call => _) = _
      rw [← h.client, hc, Option.bind_some, hstep]
      rfl
    · exact { h with client := by rw [← h.client] }
  | stream id' a =>
    cases ha
    obtain ⟨c, hc, c', hstep, rfl⟩ := Remote.internal_stream hs
    refine ⟨.stream id' a, { s with client := s.client.setStreamCall id' c' }, decide_eq_true rfl,
      ?_, ?_, rfl⟩
    · show ((s.client.streamCalls id').bind fun call => _) = _
      rw [← h.client, hc, Option.bind_some, hstep]
      rfl
    · exact { h with client := by rw [← h.client] }

/-- The caller brings its request to the end. -/
theorem Refines.finish (h : Refines W user s r) (hinv : RemoteBroker.Inv P W user r) {id : UInt64}
    (hr : (r.remote.replies id).isSome) (hunread : s.unread = []) :
    Reaches P W user id s r fun _ r' => r'.remote.isFinished id = true := by
  generalize hwork : r.remote.work id = n
  induction n using Nat.strong_induction_on generalizing s r with
  | _ n ih =>
    obtain hfinished | ⟨a, remote, hid, hkeeps, hstep, hlt⟩ := hinv.remote.progress hr
    · exact .here h hinv hfinished
    · have hread : a ≠ .read id := by
        rintro rfl
        obtain ⟨-, m, messages, hincoming, -⟩ := Remote.internal_read hstep
        rw [h.incoming, hunread] at hincoming
        cases hincoming
      obtain ⟨b, s', hown, hs, h', hunread'⟩ := h.internal (P := P) hid hread hstep
      have hr' : (remote.replies id).isSome := by
        rw [Remote.internal_replies hstep]
        exact hr
      exact .cons remote hown hs (Remote.internal_replies hstep)
        (ih _ (hwork ▸ hlt) h' (hinv.internal hkeeps hstep) hr' (hunread'.trans hunread) rfl)

/-- What the broker has served comes to its end. -/
theorem Refines.finishes (h : Refines W user s r) (hinv : RemoteBroker.Inv P W user r) {id : UInt64}
    (hr : (r.remote.replies id).isSome) :
    Reaches P W user id s r fun _ r' => r'.remote.isFinished id = true := by
  refine (h.rest id hinv).trans fun s₁ r₁ h₁ hinv₁ hreplies₁ hpending => ?_
  refine (h₁.readAll id hinv₁ hpending).trans fun s₂ r₂ h₂ hinv₂ hreplies₂ hunread => ?_
  exact h₂.finish hinv₂ (by rw [hreplies₂, hreplies₁]; exact hr) hunread

variable {C : Ed25519} {userPk : PrivKey} {client : PubKey} {b : BrokerServer}

/-- Every run of a session in which the callers keep their streams to the end is a run of the remote
broker with the same requests and the same steps of the callers. So each caller sees the outcome of
the local call, and if its request was served, the node, the reader loop and the caller alone can
bring it to its end. -/
theorem refines_remoteBroker (hW : W.MessageLaws) (hH : W.HandshakeLaws) {as : List Action}
    (hrun : (new W C user userPk client b).run P W as = some s)
    (hkeeps : Steps.Along (Session.step P W) (fun s a => s.keeps a = true)
      (new W C user userPk client b) as) :
    ∃ bs r, (RemoteBroker.new b).run P W user bs = some r ∧
      Steps.Along (RemoteBroker.step P W user) (fun r a => r.keeps a = true) (.new b) bs ∧
      bs.filterMap RemoteBroker.Action.seen = as.filterMap Action.seen ∧
      r.broker = s.broker ∧ r.remote.client = s.client ∧ s.client.readerLoop = .running ∧
      ∀ id overlay content, .request id overlay content ∈ as →
        RemoteBroker.SameOutcome P user r id overlay content ∧
        ((r.served id).isSome → Reaches P W user id s r fun s' r' =>
          r'.remote.client = s'.client ∧ r'.remote.isFinished id = true ∧
            RemoteBroker.SameOutcome P user r' id overlay content) := by
  obtain ⟨bs, r, hbs, hrun', hseen, hsim⟩ :=
    (simulates hW hH).run (.connecting .start) hkeeps hrun
  have hinv : RemoteBroker.Inv P W user r := Steps.run_invariant_along
    (fun h ha hs => h.step hW ha hs) (RemoteBroker.inv_new b) hbs hrun'
  have hasked {id : UInt64} {overlay : OverlayId} {content : BrokerOverlayRequestContent}
      (hmem : .request id overlay content ∈ as) : r.asked id = some (overlay, content) := by
    refine (RemoteBroker.inv_new b).asked_of_mem hW hbs hrun' ?_
    have hseen' : RemoteBroker.Action.request id overlay content ∈ as.filterMap Action.seen :=
      List.mem_filterMap.mpr ⟨_, hmem, rfl⟩
    rw [← hseen] at hseen'
    obtain ⟨b', hb', heq⟩ := List.mem_filterMap.mp hseen'
    cases b' with
    | request =>
      cases heq
      exact hb'
    | serve => cases heq
    | internal a =>
      cases a <;> cases heq
  refine ⟨bs, r, hrun', hbs, hseen, ?_⟩
  cases hsim with
  | connecting h =>
    obtain ⟨-, hclient, hbroker⟩ := h.idle
    refine ⟨hbroker.symm, hclient.symm, by rw [hclient]; rfl, fun id overlay content hmem => ?_⟩
    cases hasked hmem
  | «open» h _ =>
    refine ⟨h.broker, h.client, ?_, fun id overlay content hmem =>
      ⟨hinv.sameOutcome (hasked hmem), fun hserved => ?_⟩⟩
    · rw [← h.client]
      exact hinv.remote.running
    · have hr : (r.remote.replies id).isSome := by
        obtain ⟨⟨sv, E⟩, hserved⟩ := Option.isSome_iff_exists.mp hserved
        obtain ⟨_, _, -, hanswered⟩ := hinv.served hserved
        generalize r.remote.replies id = replies at hanswered
        cases hanswered <;> rfl
      refine (h.finishes hinv hr).mono fun s' r' h' hinv' hasked' hfinished => ?_
      exact ⟨h'.client, hfinished, hinv'.sameOutcome (by rw [hasked']; exact hasked hmem)⟩

end Session

end

/-- The session of `TwoBlocks.actions`: the reply to the second request is sent and read between the
frames of the first. -/
def TwoBlocks.requests : List Session.Action :=
  TwoBlocks.opening ++ [.request 1 overlay getBlocks, .request 2 overlay (.objectDel overlay),
    .receive env, .loop, .loop, .loop, .loop, .task, .receive env, .loop, .task, .read, .read,
    .read, .stream 1 .handle, .stream 1 .error, .stream 1 .recv, .call 2 .handle]

open TwoBlocks in
theorem Session.refines_remoteBroker_twoBlocks : ∃ s bs r,
    session.run TwoBlocks.primitives wire TwoBlocks.requests = some s ∧
      (RemoteBroker.new TwoBlocks.broker).run TwoBlocks.primitives wire user bs = some r ∧
      bs.filterMap RemoteBroker.Action.seen = TwoBlocks.requests.filterMap Action.seen ∧
      r.broker = s.broker ∧ r.remote.client = s.client ∧
      RemoteBroker.SameOutcome TwoBlocks.primitives user r 1 overlay getBlocks := by
  have hopen : (session.run TwoBlocks.primitives wire TwoBlocks.requests).map isOpen =
    some true := by decide +kernel
  obtain ⟨s, hrun, -⟩ := Option.map_eq_some_iff.mp hopen
  obtain ⟨bs, r, hr, -, hseen, hbroker, hclient, -, hsame⟩ := refines_remoteBroker
    (Reference.wire_messageLaws fun _ _ _ => .ok ())
    (Reference.wire_handshakeLaws Reference.brokerMessage fun _ _ _ => .ok ()) hrun
    (by decide +kernel)
  exact ⟨s, bs, r, hrun, hr, hseen, hbroker, hclient, (hsame 1 overlay getBlocks (by
    simp [TwoBlocks.requests])).1⟩

end Lofire
