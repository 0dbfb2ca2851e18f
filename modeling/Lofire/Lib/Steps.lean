import Mathlib.Data.Option.Basic

/-!
# Runs of a step function

A step function gives the next state for a state and an action, or nothing if the action is not
possible in the state. `Along C` says that every step of a run meets the condition `C` on the state
before it and the action.
-/

namespace Lofire.Lib.Steps

variable {σ α : Type*} (step : σ → α → Option σ)

def run (s : σ) : List α → Option σ
  | [] => some s
  | a :: as => (step s a).bind fun s' => run s' as

def Along (C : σ → α → Prop) (s : σ) : List α → Prop
  | [] => True
  | a :: as => C s a ∧ ∀ s', step s a = some s' → Along C s' as

variable {step} {C : σ → α → Prop} {s s' : σ} {as : List α}

theorem along_cons {a : α} {s₁ : σ} (hs : step s a = some s₁) :
    Along step C s (a :: as) ↔ C s a ∧ Along step C s₁ as := by
  simp [Along, hs]

instance decidableAlong [∀ s a, Decidable (C s a)] :
    (s : σ) → (as : List α) → Decidable (Along step C s as)
  | _, [] => isTrue trivial
  | s, a :: as =>
    match hs : step s a with
    | none => decidable_of_iff (C s a) (by simp [Along, hs])
    | some s₁ =>
      have := decidableAlong s₁ as
      decidable_of_iff _ (along_cons hs).symm

theorem along_congr {D : σ → α → Prop} (h : ∀ s a, C s a ↔ D s a) :
    Along step C s as ↔ Along step D s as := by
  induction as generalizing s with
  | nil => exact Iff.rfl
  | cons a as ih => exact and_congr (h s a) (forall_congr' fun s' => imp_congr_right fun _ => ih)

@[simp] theorem run_nil : run step s [] = some s := rfl

theorem run_cons {a : α} :
    run step s (a :: as) = some s' ↔ ∃ s₁, step s a = some s₁ ∧ run step s₁ as = some s' :=
  Option.bind_eq_some_iff

theorem run_append {as' : List α} :
    run step s (as ++ as') = some s' ↔
      ∃ s₁, run step s as = some s₁ ∧ run step s₁ as' = some s' := by
  induction as generalizing s with
  | nil => simp [run]
  | cons a as ih =>
    simp only [List.cons_append, run_cons, ih]
    constructor
    · rintro ⟨s₁, hs₁, s₂, hrun, hrun'⟩
      exact ⟨s₂, ⟨s₁, hs₁, hrun⟩, hrun'⟩
    · rintro ⟨s₂, ⟨s₁, hs₁, hrun⟩, hrun'⟩
      exact ⟨s₁, hs₁, s₂, hrun, hrun'⟩

/-- What every step keeps, a run keeps. -/
theorem run_invariant {I : σ → Prop} (hstep : ∀ {s a s'}, I s → step s a = some s' → I s')
    (h : I s) (hrun : run step s as = some s') : I s' := by
  induction as generalizing s with
  | nil =>
    cases hrun
    exact h
  | cons a as ih =>
    obtain ⟨s₁, hs₁, hrun⟩ := run_cons.mp hrun
    exact ih (hstep h hs₁) hrun

/-- What every step keeps that meets the condition, a run keeps whose steps all meet it. -/
theorem run_invariant_along {I : σ → Prop}
    (hstep : ∀ {s a s'}, I s → C s a → step s a = some s' → I s') (h : I s)
    (halong : Along step C s as) (hrun : run step s as = some s') : I s' := by
  induction as generalizing s with
  | nil =>
    cases hrun
    exact h
  | cons a as ih =>
    obtain ⟨s₁, hs₁, hrun⟩ := run_cons.mp hrun
    exact ih (hstep h halong.1 hs₁) (halong.2 s₁ hs₁) hrun

/-- An invariant that exactly the steps keep that meet the condition holds in all the states of a
run if and only if all the steps of the run meet it. -/
theorem invariant_iff_along {I : σ → Prop}
    (hkeeps : ∀ {s a s'}, I s → C s a → step s a = some s' → I s')
    (hbreaks : ∀ {s a s'}, ¬ C s a → step s a = some s' → ¬ I s') (h : I s)
    (hrun : run step s as = some s') :
    (∀ before s₁, before <+: as → run step s before = some s₁ → I s₁) ↔ Along step C s as := by
  induction as generalizing s with
  | nil =>
    refine iff_of_true (fun before s₁ hbefore hrun' => ?_) trivial
    obtain rfl := List.prefix_nil.mp hbefore
    cases hrun'
    exact h
  | cons a as ih =>
    obtain ⟨s₁, hs₁, hrest⟩ := run_cons.mp hrun
    rw [along_cons hs₁]
    constructor
    · intro hall
      have hI₁ : I s₁ := hall [a] s₁ (List.prefix_append [a] as) (run_cons.mpr ⟨s₁, hs₁, rfl⟩)
      refine ⟨by_contra fun hC => hbreaks hC hs₁ hI₁,
        (ih hI₁ hrest).mp fun before s₂ hbefore hrun' => ?_⟩
      exact hall (a :: before) s₂ ((List.prefix_cons_inj a).mpr hbefore)
        (run_cons.mpr ⟨s₁, hs₁, hrun'⟩)
    · rintro ⟨hC, halong⟩ before s₂ hbefore hrun'
      cases before with
      | nil =>
        cases hrun'
        exact h
      | cons b before =>
        obtain ⟨rfl, hprefix⟩ := List.cons_prefix_cons.mp hbefore
        obtain ⟨s₃, hs₃, hrun'⟩ := run_cons.mp hrun'
        obtain rfl : s₁ = s₃ := Option.some.inj (hs₁.symm.trans hs₃)
        exact (ih (hkeeps h hC hs₁) hrest).mpr halong before s₂ hprefix hrun'

/-- A run without the condition has a first step that does not meet it. -/
theorem exists_of_not_along (halong : ¬ Along step C s as) (hrun : run step s as = some s') :
    ∃ before a after s₁ s₂, Along step C s before ∧ run step s before = some s₁ ∧ ¬ C s₁ a ∧
      step s₁ a = some s₂ ∧ run step s₂ after = some s' := by
  induction as generalizing s with
  | nil => exact absurd trivial halong
  | cons a as ih =>
    obtain ⟨s₁, hs₁, hrun⟩ := run_cons.mp hrun
    by_cases hC : C s a
    · have hrest : ¬ Along step C s₁ as := fun hrest => halong ((along_cons hs₁).mpr ⟨hC, hrest⟩)
      obtain ⟨before, a', after, s₂, s₃, hbefore, hrun', h⟩ := ih hrest hrun
      exact ⟨a :: before, a', after, s₂, s₃, (along_cons hs₁).mpr ⟨hC, hbefore⟩,
        run_cons.mpr ⟨s₁, hs₁, hrun'⟩, h⟩
    · exact ⟨[], a, as, s, s₁, trivial, rfl, hC, hs₁, hrun⟩

end Lofire.Lib.Steps
