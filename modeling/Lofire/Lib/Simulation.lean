import Lofire.Lib.Steps

/-!
# Simulations with stuttering

A step of one system is simulated by a step of another one that looks the same, or by none if there
is nothing to see of it. Then every run of the one is simulated by a run of the other
(`Simulates.run`).
-/

namespace Lofire.Lib.Steps

variable {σ τ α β γ : Type*} {step : σ → α → Option σ} {step' : τ → β → Option τ}

/-- The relation `R` is a simulation for the steps that meet `C`, by steps that meet `D`; `see` and
`see'` say what is seen of a step. -/
def Simulates (step : σ → α → Option σ) (step' : τ → β → Option τ) (C : σ → α → Prop)
    (D : τ → β → Prop) (see : α → Option γ) (see' : β → Option γ) (R : σ → τ → Prop) : Prop :=
  ∀ ⦃s a s' t⦄, R s t → C s a → step s a = some s' →
    see a = none ∧ R s' t ∨ ∃ b t', D t b ∧ see' b = see a ∧ step' t b = some t' ∧ R s' t'

theorem Simulates.run {C : σ → α → Prop} {D : τ → β → Prop} {see : α → Option γ}
    {see' : β → Option γ} {R : σ → τ → Prop} (hsim : Simulates step step' C D see see' R) {s s' : σ}
    {as : List α} {t : τ} (h : R s t) (halong : Along step C s as)
    (hrun : run step s as = some s') :
    ∃ bs t', Along step' D t bs ∧ Steps.run step' t bs = some t' ∧
      bs.filterMap see' = as.filterMap see ∧ R s' t' := by
  induction as generalizing s t with
  | nil =>
    cases hrun
    exact ⟨[], t, trivial, rfl, rfl, h⟩
  | cons a as ih =>
    obtain ⟨s₁, hs, hrest⟩ := run_cons.mp hrun
    obtain ⟨hC, halong⟩ := (along_cons hs).mp halong
    obtain ⟨hsee, h₁⟩ | ⟨b, t₁, hD, hsee, hstep, h₁⟩ := hsim h hC hs
    · obtain ⟨bs, t', hbs, hrun', hseen, h'⟩ := ih h₁ halong hrest
      refine ⟨bs, t', hbs, hrun', ?_, h'⟩
      rw [hseen, List.filterMap_cons_none hsee]
    · obtain ⟨bs, t', hbs, hrun', hseen, h'⟩ := ih h₁ halong hrest
      refine ⟨b :: bs, t', (along_cons hstep).mpr ⟨hD, hbs⟩, run_cons.mpr ⟨t₁, hstep, hrun'⟩, ?_,
        h'⟩
      rw [List.filterMap_cons, List.filterMap_cons, hsee, hseen]

end Lofire.Lib.Steps
