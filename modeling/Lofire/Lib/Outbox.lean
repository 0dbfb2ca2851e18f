import Mathlib.Data.List.Basic

/-!
# Two writers to one output

The items of a batch reach the output on two ways: the main writer writes the first one itself and
puts the others in a queue, and a second writer takes them from the queue. An item of one batch can
overtake those of the batches before it, but the items with one key stay in their order as long as
no batch with this key is accepted before the second writer is done with the key
(`Outbox.stream_step`).
-/

namespace Lofire.Lib

variable {α κ : Type*}

/-- The state of the two writers. -/
structure Outbox (α : Type*) where
  /-- what the main writer is about to write -/
  direct : Option α
  /-- what it has to put in the queue after that -/
  behind : List α
  queue : List α
  /-- what the second writer is about to write -/
  slot : Option α
  out : List α

namespace Outbox

def empty : Outbox α := ⟨none, [], [], none, []⟩

/-- What the second writer has to write. -/
def second (o : Outbox α) : List α := o.slot.toList ++ o.queue

/-- What has not been written, in the order of each key. -/
def pending (o : Outbox α) : List α := o.second ++ (o.direct.toList ++ o.behind)

inductive Step (o : Outbox α) : Outbox α → Prop
  | write {a : α} (h : o.direct = some a) :
      Step o { o with direct := none, out := o.out ++ [a] }
  | enqueue {a : α} {as : List α} (hdirect : o.direct = none) (h : o.behind = a :: as) :
      Step o { o with behind := as, queue := o.queue ++ [a] }
  | take {a : α} {as : List α} (hslot : o.slot = none) (h : o.queue = a :: as) :
      Step o { o with queue := as, slot := some a }
  | put {a : α} (h : o.slot = some a) :
      Step o { o with slot := none, out := o.out ++ [a] }

/-- The main writer is done with its batch. -/
def Idle (o : Outbox α) : Prop := o.direct = none ∧ o.behind = []

/-- The main writer accepts a batch. -/
def accept (o : Outbox α) (a : α) (as : List α) : Outbox α :=
  { o with direct := some a, behind := as }

variable {o o' : Outbox α}

theorem pending_eq_nil_iff : o.pending = [] ↔ o.Idle ∧ o.queue = [] ∧ o.slot = none := by
  unfold pending second Idle
  cases o.direct <;> cases o.slot <;> simp [and_comm]

/-! ## The items with one key -/

section Separate

variable (key : α → κ)

/-- The second writer has no item with the key of what the main writer is about to write. -/
def Separate (o : Outbox α) : Prop := ∀ a, o.direct = some a → ∀ b ∈ o.second, key b ≠ key a

variable {key}

theorem separate_empty : Separate key (empty : Outbox α) := by
  intro a ha
  cases ha

theorem Separate.accept {a : α} (h : ∀ b ∈ o.second, key b ≠ key a) (as : List α) :
    Separate key (o.accept a as) := by
  intro a' ha'
  cases ha'
  exact h

theorem Separate.step (h : Separate key o) (hs : Step o o') : Separate key o' := by
  cases hs with
  | write =>
    intro a ha
    cases ha
  | enqueue hdirect =>
    intro a ha
    rw [hdirect] at ha
    cases ha
  | take hslot hqueue =>
    intro a ha b hb
    apply h a ha b
    simpa [second, hslot, hqueue] using hb
  | put hslot =>
    intro a ha b hb
    apply h a ha b
    simp only [second, hslot, Option.toList_some]
    exact List.mem_append_right _ (by simpa [second] using hb)

end Separate

variable [DecidableEq κ] (key : α → κ)

/-- The items of a list with the key. -/
def withKey (k : κ) (as : List α) : List α := as.filter fun a => key a = k

@[simp] theorem withKey_append (k : κ) (as bs : List α) :
    withKey key k (as ++ bs) = withKey key k as ++ withKey key k bs := List.filter_append ..

theorem withKey_cons (k : κ) (a : α) (as : List α) :
    withKey key k (a :: as) = if key a = k then a :: withKey key k as else withKey key k as := by
  simp [withKey, List.filter_cons]

/-- The items with the key, written or not. -/
def stream (o : Outbox α) (k : κ) : List α := withKey key k (o.out ++ o.pending)

variable {key}

theorem withKey_eq_self {k : κ} {as : List α} (h : ∀ a ∈ as, key a = k) : withKey key k as = as :=
  List.filter_eq_self.mpr fun a ha => decide_eq_true (h a ha)

theorem withKey_eq_nil {k : κ} {as : List α} (h : ∀ a ∈ as, key a ≠ k) : withKey key k as = [] := by
  apply List.filter_eq_nil_iff.mpr
  intro a ha
  simpa using h a ha

/-- A batch is accepted after the items with its key. -/
theorem stream_accept (h : o.Idle) (a : α) (as : List α) (k : κ) :
    stream key (o.accept a as) k = stream key o k ++ withKey key k (a :: as) := by
  obtain ⟨hdirect, hbehind⟩ := h
  rw [← List.singleton_append]
  simp only [stream, pending, second, accept, hdirect, hbehind, Option.toList_some,
    Option.toList_none, withKey_append, List.append_nil, List.append_assoc]

/-- No step of the writers changes the order of the items with one key. -/
theorem stream_step (h : Separate key o) (hs : Step o o') (k : κ) :
    stream key o' k = stream key o k := by
  cases hs with
  | @write a hdirect =>
    have hsecond : second { o with direct := none, out := o.out ++ [a] } = o.second := rfl
    -- the item overtakes those of the second writer, which have other keys
    have hswap : withKey key k [a] ++ withKey key k o.second =
        withKey key k o.second ++ withKey key k [a] := by
      by_cases hk : key a = k
      · have hnone : withKey key k o.second = [] :=
          withKey_eq_nil fun b hb => hk ▸ h a hdirect b hb
        rw [hnone, List.append_nil, List.nil_append]
      · have hnone : withKey key k [a] = [] := withKey_eq_nil (by simpa using hk)
        rw [hnone, List.append_nil, List.nil_append]
    simp only [stream, pending, hsecond, hdirect, withKey_append, Option.toList_some,
      Option.toList_none, List.nil_append, List.append_assoc]
    rw [← List.append_assoc (withKey key k [a]), hswap, List.append_assoc]
  | enqueue hdirect hbehind => simp [stream, pending, second, hdirect, hbehind, withKey]
  | take hslot hqueue => simp [stream, pending, second, hslot, hqueue]
  | put hslot => simp [stream, pending, second, hslot]

/-- What was written of a key is a beginning of its items. -/
theorem withKey_out_prefix (o : Outbox α) (k : κ) : withKey key k o.out <+: stream key o k := by
  rw [stream, withKey_append]
  exact List.prefix_append ..

theorem stream_eq_of_pending (h : o.pending = []) (k : κ) :
    stream key o k = withKey key k o.out := by
  rw [stream, h, List.append_nil]

/-! ## A reader of the output -/

/-- What a reader that has read so many items does not know yet. -/
def unread (o : Outbox α) (read : Nat) : List α := o.out.drop read ++ o.pending

theorem unread_accept (h : o.Idle) (a : α) (as : List α) (read : Nat) :
    (o.accept a as).unread read = o.unread read ++ a :: as := by
  obtain ⟨hdirect, hbehind⟩ := h
  simp [unread, pending, second, accept, hdirect, hbehind]

theorem stream_eq_unread (o : Outbox α) (read : Nat) (k : κ) :
    stream key o k = withKey key k (o.out.take read) ++ withKey key k (o.unread read) := by
  rw [stream, unread, ← withKey_append, ← List.append_assoc, List.take_append_drop]

theorem Step.exists_out_eq (h : Step o o') : ∃ as, o'.out = o.out ++ as := by
  cases h with
  | @write a _ | @put a _ => exact ⟨[a], rfl⟩
  | enqueue | take => exact ⟨[], (List.append_nil _).symm⟩

/-- The writers do not change what the reader will read with a key. -/
theorem withKey_unread_step (h : Separate key o) (hs : Step o o') {read : Nat}
    (hread : read ≤ o.out.length) (k : κ) :
    withKey key k (o'.unread read) = withKey key k (o.unread read) := by
  have hstream := stream_step h hs k
  obtain ⟨as, hout⟩ := hs.exists_out_eq
  rw [stream_eq_unread o' read, stream_eq_unread o read, hout,
    List.take_append_of_le_length hread] at hstream
  exact List.append_cancel_left hstream

theorem Step.mem_unread (h : Step o o') {read : Nat} (hread : read ≤ o.out.length) {a : α}
    (ha : a ∈ o'.unread read) : a ∈ o.unread read := by
  cases h with
  | write hdirect =>
    simp only [unread, pending, second, hdirect, List.drop_append_of_le_length hread,
      List.mem_append, Option.toList_some, Option.toList_none, List.mem_singleton,
      List.not_mem_nil] at ha ⊢
    tauto
  | enqueue hdirect hbehind =>
    simp only [unread, pending, second, hbehind, List.mem_append, List.mem_cons,
      List.not_mem_nil] at ha ⊢
    tauto
  | take hslot hqueue =>
    simp only [unread, pending, second, hslot, hqueue, List.mem_append, Option.toList_some,
      Option.toList_none, List.mem_cons, List.not_mem_nil] at ha ⊢
    tauto
  | put hslot =>
    simp only [unread, pending, second, hslot, List.drop_append_of_le_length hread,
      List.mem_append, Option.toList_some, Option.toList_none, List.mem_singleton,
      List.not_mem_nil] at ha ⊢
    tauto

end Outbox

end Lofire.Lib
