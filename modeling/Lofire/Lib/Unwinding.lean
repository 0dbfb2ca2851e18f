import Mathlib.Data.Option.Basic
import Mathlib.Data.List.Basic

/-!
# Hidden actions

A machine answers each action with an output, or stops. Some of the actions are hidden from an
observer. A relation between the states is an unwinding for the actions that meet a condition if the
hidden ones on its left side keep it, and if the other ones have the same output on both sides and
keep it. The observer of a run then sees what he would see if the hidden actions were not there
(`Unwinding.run`).
-/

namespace Lofire.Lib

variable {σ α β : Type*}

section

variable (step : σ → α → Option (β × σ)) (hidden : σ → α → Bool)

/-- The outputs of a run that are not hidden, and the state after it. -/
def observe (s : σ) : List α → Option (List β × σ)
  | [] => some ([], s)
  | a :: as => (step s a).bind fun out => (observe out.2 as).map fun rest =>
    (if hidden s a then rest.1 else out.1 :: rest.1, rest.2)

/-- The actions of a run that are not hidden; an action that stops the machine leaves the state. -/
def purge (s : σ) : List α → List α
  | [] => []
  | a :: as =>
    let s' := ((step s a).map Prod.snd).getD s
    if hidden s a then purge s' as else a :: purge s' as

/-- The relation `R` between the states of two runs, of which the left one has the hidden
actions; the actions meet `C`. -/
structure Unwinding (C : α → Prop) (R : σ → σ → Prop) : Prop where
  hides : ∀ {s t a b s'}, C a → R s t → hidden s a = true → step s a = some (b, s') → R s' t
  same : ∀ {s t a b s'}, C a → R s t → hidden s a = false → step s a = some (b, s') →
    ∃ t', step t a = some (b, t') ∧ R s' t'

end

variable {step : σ → α → Option (β × σ)} {hidden : σ → α → Bool} {s s' : σ} {a : α} {as : List α}
  {bs : List β}

/-- Nothing is hidden. -/
def nothing (_ : σ) (_ : α) : Bool := false

theorem observe_cons : observe step hidden s (a :: as) = some (bs, s') ↔
    ∃ b s₁ bs₁, step s a = some (b, s₁) ∧ observe step hidden s₁ as = some (bs₁, s') ∧
      bs = if hidden s a then bs₁ else b :: bs₁ := by
  rw [observe]
  constructor
  · intro h
    obtain ⟨⟨b, s₁⟩, hstep, h⟩ := Option.bind_eq_some_iff.mp h
    obtain ⟨⟨bs₁, s₂⟩, hrest, h⟩ := Option.map_eq_some_iff.mp h
    cases h
    exact ⟨b, s₁, bs₁, hstep, hrest, rfl⟩
  · rintro ⟨b, s₁, bs₁, hstep, hrest, rfl⟩
    rw [hstep, Option.bind_some, hrest]
    rfl

theorem purge_cons {b : β} (hstep : step s a = some (b, s')) : purge step hidden s (a :: as) =
    if hidden s a then purge step hidden s' as else a :: purge step hidden s' as := by
  rw [purge, hstep]
  rfl

/-- Whether an action is hidden does not depend on the state. -/
theorem purge_eq_filter (seen : α → Bool) (s : σ) (as : List α) :
    purge step (fun _ a => !seen a) s as = as.filter seen := by
  induction as generalizing s with
  | nil => rfl
  | cons a as ih =>
    rw [List.filter_cons, ← ih (((step s a).map Prod.snd).getD s), purge]
    cases seen a <;> rfl

/-- What every action that meets `C` keeps, a run of such actions keeps. -/
theorem observe_invariant {C : α → Prop} {I : σ → Prop}
    (hstep : ∀ {s a b s'}, C a → I s → step s a = some (b, s') → I s') (hC : ∀ a ∈ as, C a)
    (h : I s) (hrun : observe step hidden s as = some (bs, s')) : I s' := by
  induction as generalizing s bs with
  | nil =>
    cases hrun
    exact h
  | cons a as ih =>
    obtain ⟨b, s₁, bs₁, hs₁, hrest, -⟩ := observe_cons.mp hrun
    obtain ⟨ha, hC⟩ := List.forall_mem_cons.mp hC
    exact ih hC (hstep ha h hs₁) hrest

/-- If every action does to the states what it does to their images in another machine, a run has
the outputs of the run of the other machine. -/
theorem observe_map {τ : Type*} {step' : τ → α → Option (β × τ)} {abs : σ → τ} {C : α → Prop}
    {I : σ → Prop} (hkeeps : ∀ {s a b s'}, C a → I s → step s a = some (b, s') → I s')
    (hstep : ∀ {s a}, C a → I s → (step s a).map (Prod.map id abs) = step' (abs s) a)
    (hC : ∀ a ∈ as, C a) (h : I s) :
    (observe step nothing s as).map (Prod.map id abs) = observe step' nothing (abs s) as := by
  induction as generalizing s with
  | nil => rfl
  | cons a as ih =>
    obtain ⟨ha, hC⟩ := List.forall_mem_cons.mp hC
    rw [observe, observe, ← hstep ha h]
    cases hs : step s a with
    | none => rfl
    | some out =>
      obtain ⟨b, s₁⟩ := out
      show ((observe step nothing s₁ as).map _).map _ =
        (observe step' nothing (abs s₁) as).map _
      rw [← ih hC (hkeeps ha h hs), Option.map_map, Option.map_map]
      rfl

namespace Unwinding

variable {C : α → Prop} {R : σ → σ → Prop} {t t' : σ}

/-- Without the hidden actions a run has the same outputs. -/
theorem run (h : Unwinding step hidden C R) (hC : ∀ a ∈ as, C a) (hR : R s t)
    (hrun : observe step hidden s as = some (bs, s')) :
    ∃ t', observe step nothing t (purge step hidden s as) = some (bs, t') ∧ R s' t' := by
  induction as generalizing s t bs with
  | nil =>
    cases hrun
    exact ⟨t, rfl, hR⟩
  | cons a as ih =>
    obtain ⟨b, s₁, bs₁, hstep, hrest, rfl⟩ := observe_cons.mp hrun
    obtain ⟨ha, hC⟩ := List.forall_mem_cons.mp hC
    rw [purge_cons hstep]
    cases hhidden : hidden s a with
    | true => exact ih hC (h.hides ha hR hhidden hstep) hrest
    | false =>
      obtain ⟨t₁, hstep', hR₁⟩ := h.same ha hR hhidden hstep
      obtain ⟨t', hrun', hR'⟩ := ih hC hR₁ hrest
      exact ⟨t', observe_cons.mpr ⟨b, t₁, bs₁, hstep', hrun', rfl⟩, hR'⟩

/-- If the hidden actions never stop the machine, they can be put in anywhere. -/
theorem run_conv (h : Unwinding step hidden C R) (hsymm : ∀ {s t}, R s t → R t s)
    (hnever : ∀ {s t a}, R s t → hidden s a = true → ∃ b s', step s a = some (b, s'))
    (hcongr : ∀ {s t a}, R s t → hidden t a = hidden s a) (hC : ∀ a ∈ as, C a) (hR : R s t)
    (hrun : observe step nothing t (purge step hidden s as) = some (bs, t')) :
    ∃ s', observe step hidden s as = some (bs, s') ∧ R s' t' := by
  induction as generalizing s t bs with
  | nil =>
    cases hrun
    exact ⟨s, rfl, hR⟩
  | cons a as ih =>
    obtain ⟨ha, hC⟩ := List.forall_mem_cons.mp hC
    cases hhidden : hidden s a with
    | true =>
      obtain ⟨b, s₁, hstep⟩ := hnever hR hhidden
      rw [purge_cons hstep, hhidden, if_pos rfl] at hrun
      obtain ⟨s', hrun', hR'⟩ := ih hC (h.hides ha hR hhidden hstep) hrun
      refine ⟨s', observe_cons.mpr ⟨b, s₁, bs, hstep, hrun', ?_⟩, hR'⟩
      rw [hhidden, if_pos rfl]
    | false =>
      have hpurge : purge step hidden s (a :: as) =
          a :: purge step hidden (((step s a).map Prod.snd).getD s) as := by
        rw [purge, hhidden]
        rfl
      rw [hpurge] at hrun
      obtain ⟨b, t₁, bs₁, hstep', hrest, rfl⟩ := observe_cons.mp hrun
      obtain ⟨s₁, hstep, hR₁⟩ := h.same ha (hsymm hR) ((hcongr hR).trans hhidden) hstep'
      rw [hstep] at hrest
      obtain ⟨s', hrun', hR'⟩ := ih hC (hsymm hR₁) hrest
      refine ⟨s', observe_cons.mpr ⟨b, s₁, bs₁, hstep, hrun', ?_⟩, hR'⟩
      rw [hhidden]
      rfl

end Unwinding

end Lofire.Lib
