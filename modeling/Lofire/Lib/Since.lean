import Lofire.Lib.Steps
import Mathlib.Data.List.Induction

/-!
# What holds since an action

Some actions bring a property of the states about, some end it, and the others leave it as it is. If
the property did not hold at first, then it holds after a run exactly if an action of the run has
brought it about and none has ended it since (`holds_iff_since`).
-/

namespace Lofire.Lib.Steps

variable {σ α : Type*} {step : σ → α → Option σ} {C sets clears : σ → α → Prop} {s s' s₁ s₂ : σ}
  {a : α} {as as' : List α}

/-- An action of the run `sets` something, and no later one `clears` it. -/
def Since (step : σ → α → Option σ) (sets clears : σ → α → Prop) (s : σ) (as : List α) : Prop :=
  ∃ before a after s₁ s₂, as = before ++ a :: after ∧ run step s before = some s₁ ∧ sets s₁ a ∧
    step s₁ a = some s₂ ∧ Along step (fun s a => ¬ clears s a) s₂ after

theorem along_append (hrun : run step s as = some s') :
    Along step C s (as ++ as') ↔ Along step C s as ∧ Along step C s' as' := by
  induction as generalizing s with
  | nil =>
    cases hrun
    exact (and_iff_right trivial).symm
  | cons a as ih =>
    obtain ⟨s₁, hs₁, hrun⟩ := run_cons.mp hrun
    rw [List.cons_append, along_cons hs₁, along_cons hs₁, ih hrun, and_assoc]

theorem along_of_forall {D : α → Prop} (h : ∀ a ∈ as, D a) (s : σ) :
    Along step (fun _ a => D a) s as := by
  induction as generalizing s with
  | nil => trivial
  | cons a as ih =>
    obtain ⟨ha, h⟩ := List.forall_mem_cons.mp h
    exact ⟨ha, fun s' _ => ih h s'⟩

/-- What is left of a run after one of its actions. -/
theorem run_after {before after : List α} (hbefore : run step s before = some s₁)
    (hstep : step s₁ a = some s₂) (hrun : run step s (before ++ a :: after) = some s') :
    run step s₂ after = some s' := by
  obtain ⟨t₁, hbefore', hrest⟩ := run_append.mp hrun
  rw [hbefore, Option.some.injEq] at hbefore'
  obtain ⟨t₂, hstep', hafter⟩ := run_cons.mp hrest
  rw [← hbefore', hstep, Option.some.injEq] at hstep'
  rw [hstep']
  exact hafter

/-- What a run has set, or its last action sets. -/
theorem since_append_singleton (hrun : run step s as = some s₁) (hstep : step s₁ a = some s₂) :
    Since step sets clears s (as ++ [a]) ↔
      sets s₁ a ∨ Since step sets clears s as ∧ ¬ clears s₁ a := by
  constructor
  · rintro ⟨before, a', after, t₁, t₂, hsplit, hbefore, hsets, hstep', halong⟩
    rcases List.eq_nil_or_concat after with rfl | ⟨after, a'', rfl⟩
    · obtain ⟨rfl, hlast⟩ := List.append_inj' hsplit rfl
      obtain rfl := List.singleton_inj.mp hlast
      rw [hrun, Option.some.injEq] at hbefore
      exact .inl (hbefore ▸ hsets)
    · rw [List.concat_eq_append, ← List.cons_append, ← List.append_assoc] at hsplit
      obtain ⟨rfl, hlast⟩ := List.append_inj' hsplit rfl
      obtain rfl := List.singleton_inj.mp hlast
      rw [List.concat_eq_append, along_append (run_after hbefore hstep' hrun)] at halong
      exact .inr ⟨⟨before, a', after, t₁, t₂, rfl, hbefore, hsets, hstep', halong.1⟩, halong.2.1⟩
  · intro h
    rcases h with hsets | ⟨⟨before, a', after, t₁, t₂, rfl, hbefore, hsets, hstep', halong⟩, hnot⟩
    · exact ⟨as, a, [], s₁, s₂, rfl, hrun, hsets, hstep, trivial⟩
    · refine ⟨before, a', after ++ [a], t₁, t₂, by simp, hbefore, hsets, hstep', ?_⟩
      exact (along_append (run_after hbefore hstep' hrun)).mpr ⟨halong, hnot, fun _ _ => trivial⟩

/-- A property that some actions bring about and some end; `I` is an invariant of the actions that
meet `D`. -/
theorem holds_iff_since {D : α → Prop} {I Q : σ → Prop}
    (hkeeps : ∀ {s a s'}, D a → I s → step s a = some s' → I s')
    (hstep : ∀ {s a s'}, D a → I s → step s a = some s' → (Q s' ↔ sets s a ∨ Q s ∧ ¬ clears s a))
    (hD : ∀ a ∈ as, D a) (h : I s) (hnot : ¬ Q s) (hrun : run step s as = some s') :
    Q s' ↔ Since step sets clears s as := by
  induction as using List.reverseRecOn generalizing s' with
  | nil =>
    cases hrun
    refine iff_of_false hnot ?_
    rintro ⟨before, a, after, -, -, heq, -⟩
    simp at heq
  | append_singleton as a ih =>
    obtain ⟨s₁, hrun, hlast⟩ := run_append.mp hrun
    obtain ⟨s₂, hs₂, hnil⟩ := run_cons.mp hlast
    cases hnil
    have ha : D a := hD a (by simp)
    have hD : ∀ a ∈ as, D a := fun a ha => hD a (List.mem_append_left _ ha)
    have h₁ : I s₁ := run_invariant_along (C := fun _ a => D a) (fun h ha hs => hkeeps ha h hs) h
      (along_of_forall hD s) hrun
    rw [hstep ha h₁ hs₂, since_append_singleton hrun hs₂, ih hD hrun]

end Lofire.Lib.Steps
