import Mathlib.Logic.Function.Basic

/-!
# Programs that make calls

A `Prog` makes calls one after the other and goes on with each reply. It runs alone on a state
(`run`), or as one of a pool of programs whose calls interleave in any order (`Pool`): every call is
atomic, and between two calls of one program the others can make any number of calls.
-/

namespace Lofire.Lib

/-- The calls a program can make, with the type of the reply to each. -/
structure Signature where
  Call : Type
  Reply : Call → Type

inductive Prog (S : Signature) (α : Type)
  | ret (a : α)
  | call (c : S.Call) (k : S.Reply c → Prog S α)

namespace Prog

variable {S : Signature} {σ ι α β : Type}

def bind : Prog S α → (α → Prog S β) → Prog S β
  | .ret a, f => f a
  | .call c k, f => .call c fun r => (k r).bind f

instance : Monad (Prog S) where
  pure := .ret
  bind := bind

/-- The program that makes one call and returns the reply. -/
def perform (c : S.Call) : Prog S (S.Reply c) := .call c .ret

/-- The program alone on a state. -/
def run (exec : (c : S.Call) → σ → S.Reply c × σ) : Prog S α → σ → α × σ
  | .ret a, s => (a, s)
  | .call c k, s => (k (exec c s).1).run exec (exec c s).2

theorem run_bind (exec : (c : S.Call) → σ → S.Reply c × σ) (x : Prog S α) (f : α → Prog S β)
    (s : σ) : (x >>= f).run exec s = (f (x.run exec s).1).run exec (x.run exec s).2 := by
  induction x generalizing s with
  | ret a => rfl
  | call c k ih => exact ih (exec c s).1 (exec c s).2

section Fallible

variable {exec : (c : S.Call) → σ → S.Reply c × σ} {ε : Type} {s s' : σ}

theorem run_bindE_ok {x : ExceptT ε (Prog S) α} {a : α} (h : x.run.run exec s = (.ok a, s'))
    (f : α → ExceptT ε (Prog S) β) : (x >>= f).run.run exec s = (f a).run.run exec s' := by
  rw [ExceptT.run_bind, run_bind, h]

theorem run_bindE_error {x : ExceptT ε (Prog S) α} {e : ε} (h : x.run.run exec s = (.error e, s'))
    (f : α → ExceptT ε (Prog S) β) : (x >>= f).run.run exec s = (.error e, s') := by
  rw [ExceptT.run_bind, run_bind, h]
  rfl

theorem run_liftE_bind (x : Prog S α) (f : α → ExceptT ε (Prog S) β) :
    (liftM x >>= f : ExceptT ε (Prog S) β).run.run exec s =
      (f (x.run exec s).1).run.run exec (x.run exec s).2 := by
  have h : (liftM x : ExceptT ε (Prog S) α).run.run exec s =
      (.ok (x.run exec s).1, (x.run exec s).2) := by
    show (x >>= fun a => pure (Except.ok a)).run exec s = _
    rw [run_bind]
    rfl
  exact run_bindE_ok h f

theorem run_bindO_ok {x : ExceptT ε (OptionT (Prog S)) α} {a : α}
    (h : x.run.run.run exec s = (some (.ok a), s')) (f : α → ExceptT ε (OptionT (Prog S)) β) :
    (x >>= f).run.run.run exec s = (f a).run.run.run exec s' := by
  rw [ExceptT.run_bind, OptionT.run_bind, Option.elimM, run_bind, h]
  rfl

theorem run_bindO_error {x : ExceptT ε (OptionT (Prog S)) α} {e : ε}
    (h : x.run.run.run exec s = (some (.error e), s')) (f : α → ExceptT ε (OptionT (Prog S)) β) :
    (x >>= f).run.run.run exec s = (some (.error e), s') := by
  rw [ExceptT.run_bind, OptionT.run_bind, Option.elimM, run_bind, h]
  rfl

end Fallible

/-- Every call that the program makes on its way from `s` satisfies `p`. -/
def Along (exec : (c : S.Call) → σ → S.Reply c × σ) (p : σ → S.Call → Prop) : Prog S α → σ → Prop
  | .ret _, _ => True
  | .call c k, s => p s c ∧ (k (exec c s).1).Along exec p (exec c s).2

section Along

variable {exec : (c : S.Call) → σ → S.Reply c × σ} {p q : σ → S.Call → Prop}

theorem along_bind {x : Prog S α} {f : α → Prog S β} {s : σ} :
    (x >>= f).Along exec p s ↔
      x.Along exec p s ∧ (f (x.run exec s).1).Along exec p (x.run exec s).2 := by
  induction x generalizing s with
  | ret a => exact ⟨fun h => ⟨trivial, h⟩, And.right⟩
  | call c k ih =>
    constructor
    · rintro ⟨hc, hk⟩
      obtain ⟨hx, hf⟩ := (ih (exec c s).1).mp hk
      exact ⟨⟨hc, hx⟩, hf⟩
    · rintro ⟨⟨hc, hx⟩, hf⟩
      exact ⟨hc, (ih (exec c s).1).mpr ⟨hx, hf⟩⟩

/-- What the calls along the run keep holds after it. -/
theorem Along.invariant {x : Prog S α} {s : σ} {I : σ → Prop} (h : x.Along exec p s) (hs : I s)
    (hstep : ∀ s c, p s c → I s → I (exec c s).2) : I (x.run exec s).2 := by
  induction x generalizing s with
  | ret a => exact hs
  | call c k ih => exact ih (exec c s).1 h.2 (hstep s c h.1 hs)

/-- A state with more to it, on which the calls do the same. -/
theorem run_map {τ : Type} {exec' : (c : S.Call) → τ → S.Reply c × τ} (f : τ → σ)
    (hreply : ∀ c t, (exec' c t).1 = (exec c (f t)).1)
    (hstate : ∀ c t, f (exec' c t).2 = (exec c (f t)).2) (x : Prog S α) (t : τ) :
    (x.run exec' t).1 = (x.run exec (f t)).1 ∧ f (x.run exec' t).2 = (x.run exec (f t)).2 := by
  induction x generalizing t with
  | ret a => exact ⟨rfl, rfl⟩
  | call c k ih =>
    have hk := ih (exec' c t).1 (exec' c t).2
    rw [hstate c t, hreply c t] at hk
    unfold run
    rw [hreply c t]
    exact hk

theorem Along.map {τ : Type} {exec' : (c : S.Call) → τ → S.Reply c × τ} {f : τ → σ}
    (hreply : ∀ c t, (exec' c t).1 = (exec c (f t)).1)
    (hstate : ∀ c t, f (exec' c t).2 = (exec c (f t)).2) {x : Prog S α} {t : τ}
    (h : x.Along exec p (f t)) : x.Along exec' (fun t c => p (f t) c) t := by
  induction x generalizing t with
  | ret a => trivial
  | call c k ih =>
    refine ⟨h.1, ?_⟩
    rw [hreply c t]
    refine ih _ ?_
    rw [hstate c t]
    exact h.2

theorem Along.mono {x : Prog S α} {s : σ} (h : x.Along exec p s) (hpq : ∀ s c, p s c → q s c) :
    x.Along exec q s := by
  induction x generalizing s with
  | ret a => trivial
  | call c k ih => exact ⟨hpq s c h.1, ih (exec c s).1 h.2⟩

end Along

/-- Every call that the program can make satisfies `p`, whatever the replies. -/
def Calls (p : S.Call → Prop) : Prog S α → Prop
  | .ret _ => True
  | .call c k => p c ∧ ∀ r, (k r).Calls p

theorem calls_bind {p : S.Call → Prop} {x : Prog S α} {f : α → Prog S β} (hx : x.Calls p)
    (hf : ∀ a, (f a).Calls p) : (x >>= f).Calls p := by
  induction x with
  | ret a => exact hf a
  | call c k ih => exact ⟨hx.1, fun r => ih r (hx.2 r)⟩

theorem Calls.along {p : S.Call → Prop} {x : Prog S α} (h : x.Calls p)
    (exec : (c : S.Call) → σ → S.Reply c × σ) (s : σ) : x.Along exec (fun _ c => p c) s := by
  induction x generalizing s with
  | ret a => trivial
  | call c k ih => exact ⟨h.1, ih _ (h.2 _) _⟩

theorem Calls.mono {p q : S.Call → Prop} {x : Prog S α} (h : x.Calls p) (hpq : ∀ c, p c → q c) :
    x.Calls q := by
  induction x with
  | ret a => trivial
  | call c k ih => exact ⟨hpq c h.1, fun r => ih r (h.2 r)⟩

/-- The call with which the program goes on. -/
def nextCall : Prog S α → Option S.Call
  | .ret _ => none
  | .call c _ => some c

end Prog

/-- Programs that share a state. -/
structure Pool (S : Signature) (σ ι α : Type) where
  state : σ
  progs : ι → Prog S α

namespace Pool

variable {S : Signature} {σ ι α : Type} [DecidableEq ι]

/-- The program `i` makes its next call. -/
def step (exec : (c : S.Call) → σ → S.Reply c × σ) (w : Pool S σ ι α) (i : ι) : Pool S σ ι α :=
  match w.progs i with
  | .ret _ => w
  | .call c k => ⟨(exec c w.state).2, Function.update w.progs i (k (exec c w.state).1)⟩

theorem step_progs_of_ne (exec : (c : S.Call) → σ → S.Reply c × σ) (w : Pool S σ ι α) {i j : ι}
    (hj : j ≠ i) : (w.step exec i).progs j = w.progs j := by
  unfold step
  split
  · rfl
  · exact Function.update_of_ne hj _ _

/-- The pools that are reached from `w` by steps which `Allowed` permits. -/
inductive Reachable (exec : (c : S.Call) → σ → S.Reply c × σ) (Allowed : Pool S σ ι α → ι → Prop)
    (w : Pool S σ ι α) : Pool S σ ι α → Prop
  | refl : Reachable exec Allowed w w
  | step {w' : Pool S σ ι α} (h : Reachable exec Allowed w w') (i : ι) (hallowed : Allowed w' i) :
      Reachable exec Allowed w (w'.step exec i)

variable {exec : (c : S.Call) → σ → S.Reply c × σ} {Allowed : Pool S σ ι α → ι → Prop}

/-- What every allowed call keeps holds in every pool that is reached. -/
theorem Reachable.invariant {I : Pool S σ ι α → Prop} {w w' : Pool S σ ι α}
    (h : Reachable exec Allowed w w') (hw : I w)
    (hstep : ∀ w i c k, I w → Allowed w i → w.progs i = .call c k →
      I ⟨(exec c w.state).2, Function.update w.progs i (k (exec c w.state).1)⟩) : I w' := by
  induction h with
  | refl => exact hw
  | @step w' _ i hallowed ih =>
    unfold Pool.step
    cases hprog : w'.progs i with
    | ret a => exact ih
    | call c k => exact hstep w' i c k ih hallowed hprog

theorem Reachable.foldl {w : Pool S σ ι α} (is : List ι) (hallowed : ∀ w, ∀ i ∈ is, Allowed w i) :
    Reachable exec Allowed w (is.foldl (Pool.step exec) w) := by
  have hgen : ∀ w', Reachable exec Allowed w w' →
      Reachable exec Allowed w (is.foldl (Pool.step exec) w') := by
    induction is with
    | nil => exact fun w' h => h
    | cons i is ih =>
      intro w' h
      exact ih (fun w i hi => hallowed w i (List.mem_cons_of_mem _ hi)) _
        (h.step i (hallowed w' i List.mem_cons_self))
  exact hgen w .refl

end Pool

end Lofire.Lib
