import Mathlib.Data.List.Basic

/-!
# Actors

An actor handles the events of its mailbox in the order in which they were sent. A handler returns
the new state of the actor and whether it asks the actor to stop, or panics (`none`). The demand to
stop is an event of the mailbox itself: what was sent before it is handled, and what is sent after
it is lost when the loop of the actor ends.
-/

namespace Lofire.Lib

variable {μ σ : Type}

inductive ActorEvent (μ : Type)
  | exec (m : μ)
  | stop
  deriving DecidableEq

namespace ActorEvent

/-- The message of an event. -/
def message : ActorEvent μ → Option μ
  | exec m => some m
  | stop => none

end ActorEvent

structure Actor (μ σ : Type) where
  state : σ
  mailbox : List (ActorEvent μ)
  /-- The loop of the actor has not ended. -/
  running : Bool
  /-- The messages that were handled, a history of the actor. -/
  handled : List μ
  deriving DecidableEq

namespace Actor

def start (state : σ) : Actor μ σ := ⟨state, [], true, []⟩

/-- A message to an actor whose loop has ended is refused. -/
def send (a : Actor μ σ) (m : μ) : Option (Actor μ σ) :=
  if a.running then some { a with mailbox := a.mailbox ++ [.exec m] } else none

/-- Ask the actor to stop. -/
def stop (a : Actor μ σ) : Actor μ σ :=
  if a.running then { a with mailbox := a.mailbox ++ [.stop] } else a

/-- The loop ends. -/
def exit (a : Actor μ σ) : Actor μ σ := { a with mailbox := [], running := false }

/-- The next event of the mailbox is handled. -/
def next (handle : σ → μ → Option (σ × Bool)) (a : Actor μ σ) : Option (Actor μ σ) :=
  match a.running, a.mailbox with
  | true, .stop :: _ => some a.exit
  | true, .exec m :: mailbox =>
    match handle a.state m with
    | some (state, stops) => some { a with
        state, mailbox := mailbox ++ (if stops then [.stop] else []), handled := a.handled ++ [m] }
    | none => some a.exit
  | _, _ => none

/-- The messages of the mailbox. -/
def queued (a : Actor μ σ) : List μ := a.mailbox.filterMap ActorEvent.message

section

variable {handle : σ → μ → Option (σ × Bool)} {a a' : Actor μ σ}

@[simp] theorem queued_map_exec (ms : List μ) :
    (ms.map ActorEvent.exec).filterMap ActorEvent.message = ms := by
  induction ms with
  | nil => rfl
  | cons m ms ih => rw [List.map_cons, List.filterMap_cons, ActorEvent.message, ih]

/-- The demand to stop is no message. -/
@[simp] theorem queued_append_stop (mailbox : List (ActorEvent μ)) (stops : Bool) :
    (mailbox ++ (if stops then [ActorEvent.stop] else [])).filterMap ActorEvent.message =
      mailbox.filterMap ActorEvent.message := by
  cases stops <;> simp [ActorEvent.message]

theorem send_of_running (h : a.running = true) (m : μ) :
    a.send m = some { a with mailbox := a.mailbox ++ [.exec m] } := if_pos h

theorem send_eq_none (h : a.running = false) (m : μ) : a.send m = none := by
  rw [send, h]
  rfl

/-- What the actor can do next: its loop ends, or it handles the first message. -/
theorem next_cases (h : a.next handle = some a') : a.running = true ∧
    ((∃ rest, a.mailbox = .stop :: rest ∧ a' = a.exit) ∨ ∃ m rest, a.mailbox = .exec m :: rest ∧
      (handle a.state m = none ∧ a' = a.exit ∨ ∃ state stops,
        handle a.state m = some (state, stops) ∧
        a' = { a with
          state, mailbox := rest ++ (if stops then [.stop] else []), handled :=
          a.handled ++ [m] })) := by
  unfold next at h
  split at h
  · rename_i rest hrunning hmailbox
    cases h
    exact ⟨hrunning, .inl ⟨rest, hmailbox, rfl⟩⟩
  · rename_i m rest hrunning hmailbox
    refine ⟨hrunning, .inr ⟨m, rest, hmailbox, ?_⟩⟩
    split at h
    · rename_i state stops hhandle
      cases h
      exact .inr ⟨state, stops, hhandle, rfl⟩
    · rename_i hhandle
      cases h
      exact .inl ⟨hhandle, rfl⟩
  · cases h

theorem next_exec {m : μ} {rest : List (ActorEvent μ)} {state : σ} {stops : Bool}
    (hrunning : a.running = true) (h : a.mailbox = .exec m :: rest)
    (hhandle : handle a.state m = some (state, stops)) : a.next handle = some { a with
      state, mailbox := rest ++ (if stops then [.stop] else []), handled := a.handled ++ [m] } := by
  rw [next, hrunning, h]
  dsimp only
  rw [hhandle]

end

end Actor

end Lofire.Lib
