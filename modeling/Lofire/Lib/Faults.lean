import Lofire.Lib.Prog
import Mathlib.Data.Nat.Notation

/-!
# Programs of which a call fails

A call that fails returns an error and leaves the state as it is. A `Fault` says which one of the
calls of a run fails, if one does; a `FaultPattern` says which of the calls of a kind fail, any
number of them.
-/

namespace Lofire.Lib

/-- The number of the call that fails, counted from 0, and its error. -/
abbrev Fault (ε : Type) := Option (ℕ × ε)

/-- A state and the number of calls that have been made. -/
structure Counted (σ : Type) where
  state : σ
  calls : ℕ

namespace Fault

variable {S : Signature} {σ ε α : Type}

/-- The error of the call with the number `n`. -/
def error (fault : Fault ε) (n : ℕ) : Option ε :=
  fault.bind fun failing => if failing.1 = n then some failing.2 else none

/-- The call that fails is one of those from `a` on and before `b`. -/
def In (fault : Fault ε) (a b : ℕ) : Prop := ∃ n e, fault = some (n, e) ∧ a ≤ n ∧ n < b

variable {fault : Fault ε} {a b n : ℕ} {e : ε}

theorem error_eq_some : fault.error n = some e ↔ fault = some (n, e) := by
  rcases fault with _ | ⟨k, e'⟩
  · simp [error]
  · simp only [error, Option.bind_some, Option.some.injEq, Prod.mk.injEq]
    by_cases h : k = n <;> simp [h]

theorem in_of_error (h : fault.error n = some e) (ha : a ≤ n) (hb : n < b) : fault.In a b :=
  ⟨n, e, error_eq_some.mp h, ha, hb⟩

theorem In.mono {a' b' : ℕ} (h : fault.In a b) (ha : a' ≤ a) (hb : b ≤ b') : fault.In a' b' := by
  obtain ⟨n, e, hfault, han, hnb⟩ := h
  exact ⟨n, e, hfault, by omega, by omega⟩

/-- One call fails at most. -/
theorem error_of_in (h : fault.In a b) (hn : n < a ∨ b ≤ n) : fault.error n = none := by
  obtain ⟨k, e, rfl, hak, hkb⟩ := h
  have hne : k ≠ n := by omega
  simp [error, hne]

theorem error_of_other {m : ℕ} (h : fault.error m = some e) (hne : m ≠ n) : fault.error n = none :=
  error_of_in (in_of_error h (Nat.le_refl m) (Nat.lt_succ_self m)) (by omega)

theorem error_of_not_in (h : ¬ fault.In a b) (ha : a ≤ n) (hb : n < b) : fault.error n = none := by
  cases herr : fault.error n with
  | none => rfl
  | some e => exact absurd (in_of_error herr ha hb) h

/-- The first call of a stretch fails, or a later one. -/
theorem In.split (h : fault.In a b) : (∃ e, fault.error a = some e) ∨ fault.In (a + 1) b := by
  obtain ⟨n, e, hfault, han, hnb⟩ := h
  by_cases hn : n = a
  · subst hn
    exact .inl ⟨e, error_eq_some.mpr hfault⟩
  · exact .inr ⟨n, e, hfault, by omega, hnb⟩

/-- The call that fails is in one of two stretches that follow one another. -/
theorem In.or {c : ℕ} (h : fault.In a c) : fault.In a b ∨ fault.In b c := by
  obtain ⟨n, e, hfault, han, hnc⟩ := h
  by_cases hb : n < b
  · exact .inl ⟨n, e, hfault, han, hb⟩
  · exact .inr ⟨n, e, hfault, by omega, hnc⟩

theorem in_succ : fault.In n (n + 1) ↔ ∃ e, fault.error n = some e := by
  constructor
  · intro h
    obtain h | ⟨k, e, -, hlo, hhi⟩ := h.split
    · exact h
    · omega
  · rintro ⟨e, he⟩
    exact in_of_error he (Nat.le_refl n) (Nat.lt_succ_self n)

theorem In.lt (h : fault.In a b) : a < b := by
  obtain ⟨n, e, -, han, hnb⟩ := h
  omega

/-! ## Runs -/

section Runs

variable (failed : (c : S.Call) → ε → S.Reply c) (exec : (c : S.Call) → σ → S.Reply c × σ)
  (fault : Fault ε)

/-- A call, which fails if it is its turn. -/
def execWith (c : S.Call) (w : Counted σ) : S.Reply c × Counted σ :=
  match fault.error w.calls with
  | some e => (failed c e, ⟨w.state, w.calls + 1⟩)
  | none => ((exec c w.state).1, ⟨(exec c w.state).2, w.calls + 1⟩)

theorem execWith_of_error {c : S.Call} {s : σ} (h : fault.error n = some e) :
    fault.execWith failed exec c ⟨s, n⟩ = (failed c e, ⟨s, n + 1⟩) := by
  simp only [Fault.execWith, h]

theorem execWith_of_none {c : S.Call} {s : σ} (h : fault.error n = none) :
    fault.execWith failed exec c ⟨s, n⟩ = ((exec c s).1, ⟨(exec c s).2, n + 1⟩) := by
  simp only [Fault.execWith, h]

/-- Without a fault, the run is that of the program alone. -/
theorem run_none (x : Prog S α) (w : Counted σ) :
    (x.run (Fault.execWith failed exec none) w).1 = (x.run exec w.state).1 ∧
      (x.run (Fault.execWith failed exec none) w).2.state = (x.run exec w.state).2 :=
  Prog.run_map Counted.state (fun _ _ => rfl) (fun _ _ => rfl) x w

/-- What the calls keep, a run with a fault keeps. -/
theorem run_invariant {x : Prog S α} {p : S.Call → Prop} {I : σ → Prop} (hx : x.Calls p)
    (hstep : ∀ c s, p c → I s → I (exec c s).2) {w : Counted σ} (hw : I w.state) :
    I (x.run (fault.execWith failed exec) w).2.state := by
  refine (hx.along (fault.execWith failed exec) w).invariant (I := fun w => I w.state) hw
    fun w c hc hI => ?_
  unfold Fault.execWith
  split
  · exact hI
  · exact hstep c w.state hc hI

end Runs

end Fault

/-! ## Patterns of failures -/

/-- Which calls of a kind fail, by their number among the calls of the kind, and their errors. -/
abbrev FaultPattern (ε : Type) := ℕ → Option ε

namespace FaultPattern

variable {S : Signature} {σ ε : Type} (kind : S.Call → Bool) (failed : (c : S.Call) → ε → S.Reply c)
  (exec : (c : S.Call) → σ → S.Reply c × σ) (pattern : FaultPattern ε)

/-- A call; those of the kind are counted, and fail if the pattern says so. -/
def execWith (c : S.Call) (w : Counted σ) : S.Reply c × Counted σ :=
  if kind c then
    match pattern w.calls with
    | some e => (failed c e, ⟨w.state, w.calls + 1⟩)
    | none => ((exec c w.state).1, ⟨(exec c w.state).2, w.calls + 1⟩)
  else ((exec c w.state).1, ⟨(exec c w.state).2, w.calls⟩)

variable {kind pattern} {c : S.Call} {s : σ} {n : ℕ} {e : ε}

theorem execWith_of_some (hkind : kind c = true) (h : pattern n = some e) :
    execWith kind failed exec pattern c ⟨s, n⟩ = (failed c e, ⟨s, n + 1⟩) := by
  simp only [execWith, hkind, h, if_true]

theorem execWith_of_none (hkind : kind c = true) (h : pattern n = none) :
    execWith kind failed exec pattern c ⟨s, n⟩ = ((exec c s).1, ⟨(exec c s).2, n + 1⟩) := by
  simp only [execWith, hkind, h, if_true]

theorem execWith_of_other (hkind : kind c = false) :
    execWith kind failed exec pattern c ⟨s, n⟩ = ((exec c s).1, ⟨(exec c s).2, n⟩) := by
  simp only [execWith, hkind, Bool.false_eq_true, if_false]

/-- Without a failure, the run is that of the program alone. -/
theorem run_none {α : Type} (x : Prog S α) (w : Counted σ) :
    (x.run (execWith kind failed exec fun _ => none) w).1 = (x.run exec w.state).1 ∧
      (x.run (execWith kind failed exec fun _ => none) w).2.state = (x.run exec w.state).2 := by
  refine Prog.run_map Counted.state (fun c w => ?_) (fun c w => ?_) x w
  · unfold execWith
    split <;> rfl
  · unfold execWith
    split <;> rfl

/-- A program without a call of the kind runs as if no call could fail. -/
theorem run_of_others {α : Type} {x : Prog S α} (hx : x.Calls fun c => kind c = false) :
    x.run (execWith kind failed exec pattern) ⟨s, n⟩ =
    ((x.run exec s).1, ⟨(x.run exec s).2, n⟩) := by
  induction x generalizing s with
  | ret a => rfl
  | call c k ih =>
    unfold Prog.run
    rw [execWith_of_other failed exec hx.1]
    exact ih _ (hx.2 _)

end FaultPattern

end Lofire.Lib
