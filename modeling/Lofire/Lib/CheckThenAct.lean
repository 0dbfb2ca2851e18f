import Lofire.Lib.Prog
import Mathlib.Logic.Function.Iterate

/-!
# Programs that check before they add

A program that adds a value under a key only after a call has told it that the key has none
(`Guarded`). When such programs interleave, two of them can make the check before either adds its
value, and the key ends up with two values. Without such an overlap (`Exclusive`) every key keeps
the first value it gets (`single_of_reachable`).
-/

namespace Lofire.Lib

/-- The calls of a store of values under keys that matter here. -/
structure CheckThenAct (S : Signature) (σ κ ν : Type) where
  exec : (c : S.Call) → σ → S.Reply c × σ
  /-- The call that asks whether a key has a value. -/
  check : κ → S.Call
  /-- The call that adds a value. -/
  act : κ → ν → S.Call
  /-- The reply says that the key has no value. -/
  Failed : (key : κ) → S.Reply (check key) → Prop
  Holds : σ → κ → ν → Prop
  /-- The call changes the values of no key. -/
  Harmless : S.Call → Prop
  exec_check : ∀ s key, (exec (check key) s).2 = s
  not_holds_of_failed : ∀ {s key}, Failed key (exec (check key) s).1 → ∀ v, ¬ Holds s key v
  holds_act : ∀ {s key v key' v'}, Holds (exec (act key v) s).2 key' v' ↔
    (key' = key ∧ v' = v) ∨ Holds s key' v'
  holds_harmless : ∀ {c}, Harmless c → ∀ s key v, Holds (exec c s).2 key v ↔ Holds s key v
  not_harmless_act : ∀ {key v}, ¬ Harmless (act key v)
  check_ne_act : ∀ {key key' v}, check key ≠ act key' v
  act_inj : ∀ {key v key' v'}, act key v = act key' v' → key = key'

namespace CheckThenAct

variable {S : Signature} {σ κ ν ι α β : Type} (C : CheckThenAct S σ κ ν)

/-- The program adds a value only right after a check of its key has failed. -/
inductive Guarded : Prog S α → Prop
  | ret (a : α) : Guarded (.ret a)
  | harmless {c : S.Call} {k : S.Reply c → Prog S α} (hc : C.Harmless c) (hk : ∀ r, Guarded (k r)) :
      Guarded (.call c k)
  | check {key : κ} {v : ν} {k : S.Reply (C.check key) → Prog S α}
      {k' : S.Reply (C.act key v) → Prog S α} (hfound : ∀ r, ¬ C.Failed key r → Guarded (k r))
      (hfailed : ∀ r, C.Failed key r → k r = .call (C.act key v) k') (hk' : ∀ r, Guarded (k' r)) :
      Guarded (.call (C.check key) k)

/-- The program is between its check of the key, which has failed, and the call that adds a
value. -/
def Armed (key : κ) (x : Prog S α) : Prop :=
  ∃ v k, x = .call (C.act key v) k ∧ ∀ r, C.Guarded (k r)

variable {C}

theorem Guarded.bind {x : Prog S α} {f : α → Prog S β} (hx : C.Guarded x)
    (hf : ∀ a, C.Guarded (f a)) : C.Guarded (x >>= f) := by
  induction hx with
  | ret a => exact hf a
  | harmless hc _ ih => exact .harmless hc ih
  | @check key v k k' _ hfailed _ ihfound ihk' =>
    have hk' : ∀ r, C.Guarded ((k' r).bind f) := ihk'
    refine .check ihfound (fun r hr => ?_) hk'
    rw [hfailed r hr]
    rfl

theorem Guarded.of_calls {x : Prog S α} (h : x.Calls C.Harmless) : C.Guarded x := by
  induction x with
  | ret a => exact .ret a
  | call c k ih => exact .harmless h.1 fun r => ih r (h.2 r)

theorem Guarded.not_armed {x : Prog S α} (hx : C.Guarded x) (key : κ) : ¬ C.Armed key x := by
  rintro ⟨v, k, rfl, -⟩
  generalize hc : C.act key v = c at k hx
  cases hx with
  | harmless hharmless _ => exact C.not_harmless_act (hc ▸ hharmless)
  | check _ _ _ => exact C.check_ne_act hc.symm

theorem Armed.next {key : κ} {x : Prog S α} (h : C.Armed key x) :
    ∃ v, x.nextCall = some (C.act key v) := by
  obtain ⟨v, k, rfl, -⟩ := h
  exact ⟨v, rfl⟩

variable (C)

/-- Every key has one value at most, and a key that a program is about to give a value has none and
no other program that is about to give it one. -/
structure Safe (w : Pool S σ ι α) : Prop where
  single : ∀ key v v', C.Holds w.state key v → C.Holds w.state key v' → v = v'
  progs : ∀ i, C.Guarded (w.progs i) ∨
    ∃ key, C.Armed key (w.progs i) ∧ ∀ v, ¬ C.Holds w.state key v
  apart : ∀ i j key, C.Armed key (w.progs i) → C.Armed key (w.progs j) → i = j

/-- The next call of the program `i` does not check a key to which another program is about to add a
value. -/
def Exclusive (w : Pool S σ ι α) (i : ι) : Prop :=
  ∀ key, (w.progs i).nextCall = some (C.check key) → ∀ j ≠ i, ∀ v,
    (w.progs j).nextCall ≠ some (C.act key v)

variable {C}

theorem Safe.of_guarded {w : Pool S σ ι α}
    (hsingle : ∀ key v v', C.Holds w.state key v → C.Holds w.state key v' → v = v')
    (hprogs : ∀ i, C.Guarded (w.progs i)) : C.Safe w where
  single := hsingle
  progs i := .inl (hprogs i)
  apart i _ key hi := absurd hi ((hprogs i).not_armed key)

section Step

variable [DecidableEq ι] {w : Pool S σ ι α} {i : ι}

/-- The program `i` goes on as `x` in the state `s`. -/
theorem Safe.goOn (h : C.Safe w) {s : σ} {x : Prog S α}
    (hsingle : ∀ key v v', C.Holds s key v → C.Holds s key v' → v = v')
    (hothers : ∀ j ≠ i, ∀ key, C.Armed key (w.progs j) → ∀ v,
      C.Holds s key v → C.Holds w.state key v)
    (hx : C.Guarded x ∨ ∃ key, C.Armed key x ∧ ∀ v, ¬ C.Holds s key v)
    (hapart : ∀ key, C.Armed key x → ∀ j ≠ i, ¬ C.Armed key (w.progs j)) :
    C.Safe (⟨s, Function.update w.progs i x⟩ : Pool S σ ι α) where
  single := hsingle
  progs j := by
    by_cases hj : j = i
    · subst hj
      dsimp only
      rw [Function.update_self]
      exact hx
    · dsimp only
      rw [Function.update_of_ne hj]
      exact (h.progs j).imp_right fun ⟨key, harmed, hno⟩ =>
        ⟨key, harmed, fun v hv => hno v (hothers j hj key harmed v hv)⟩
  apart j j' key hj hj' := by
    dsimp only at hj hj'
    by_cases hji : j = i
    · by_cases hji' : j' = i
      · rw [hji, hji']
      · rw [hji, Function.update_self] at hj
        rw [Function.update_of_ne hji'] at hj'
        exact absurd hj' (hapart key hj j' hji')
    · rw [Function.update_of_ne hji] at hj
      by_cases hji' : j' = i
      · rw [hji', Function.update_self] at hj'
        exact absurd hj (hapart key hj' j hji)
      · rw [Function.update_of_ne hji'] at hj'
        exact h.apart j j' key hj hj'

/-- A call of a guarded program keeps the values that are there. -/
theorem Safe.step_guarded (h : C.Safe w) (hexclusive : C.Exclusive w i) {c : S.Call}
    {k : S.Reply c → Prog S α} (hprog : w.progs i = .call c k) (hguarded : C.Guarded (.call c k)) :
    C.Safe (⟨(C.exec c w.state).2, Function.update w.progs i (k (C.exec c w.state).1)⟩ :
      Pool S σ ι α) ∧ ∀ key v, C.Holds (C.exec c w.state).2 key v ↔ C.Holds w.state key v := by
  cases hguarded with
  | harmless hc hk =>
    have hsame := C.holds_harmless hc w.state
    refine ⟨h.goOn ?_ (fun _ _ key _ v => (hsame key v).mp) (.inl (hk _))
      fun key harmed => absurd harmed ((hk _).not_armed key), hsame⟩
    exact fun key v v' hv hv' => h.single key v v' ((hsame key v).mp hv) ((hsame key v').mp hv')
  | @check key v _ k' hfound hfailed hk' =>
    have hsame : ∀ key' v', C.Holds (C.exec (C.check key) w.state).2 key' v' ↔
        C.Holds w.state key' v' := fun key' v' => by rw [C.exec_check]
    refine ⟨?_, hsame⟩
    rw [C.exec_check]
    by_cases hreply : C.Failed key (C.exec (C.check key) w.state).1
    · rw [hfailed _ hreply]
      have harmed : C.Armed key (Prog.call (C.act key v) k') := ⟨v, k', rfl, hk'⟩
      refine h.goOn h.single (fun _ _ _ _ _ => id)
        (.inr ⟨key, harmed, C.not_holds_of_failed hreply⟩) ?_
      rintro key' ⟨v', k'', hcall, -⟩ j hj hj'
      have hkey : key = key' := C.act_inj (Prog.call.inj hcall).1
      subst hkey
      obtain ⟨v'', hnext⟩ := hj'.next
      exact hexclusive key (by rw [hprog]; rfl) j hj v'' hnext
    · have hk := hfound _ hreply
      exact h.goOn h.single (fun _ _ _ _ _ => id) (.inl hk)
        fun key' harmed => absurd harmed (hk.not_armed key')

/-- The call that adds a value, which is the only one of its key. -/
theorem Safe.step_armed (h : C.Safe w) {key : κ} {v : ν} {k : S.Reply (C.act key v) → Prog S α}
    (hprog : w.progs i = .call (C.act key v) k) (hk : ∀ r, C.Guarded (k r))
    (hno : ∀ v, ¬ C.Holds w.state key v) :
    C.Safe (⟨(C.exec (C.act key v) w.state).2,
      Function.update w.progs i (k (C.exec (C.act key v) w.state).1)⟩ : Pool S σ ι α) := by
  refine h.goOn ?_ ?_ (.inl (hk _)) fun key' harmed => absurd harmed ((hk _).not_armed key')
  · intro key' v₁ v₂ hv₁ hv₂
    obtain ⟨rfl, rfl⟩ | hold₁ := C.holds_act.mp hv₁
    · obtain ⟨-, rfl⟩ | hold₂ := C.holds_act.mp hv₂
      · rfl
      · exact absurd hold₂ (hno _)
    · obtain ⟨rfl, rfl⟩ | hold₂ := C.holds_act.mp hv₂
      · exact absurd hold₁ (hno _)
      · exact h.single key' v₁ v₂ hold₁ hold₂
  · intro j hj key' harmed v' hv'
    obtain ⟨rfl, -⟩ | hv' := C.holds_act.mp hv'
    · exact absurd (h.apart j i key' harmed ⟨v, k, hprog, hk⟩) hj
    · exact hv'

theorem Safe.step (h : C.Safe w) (hexclusive : C.Exclusive w i) {c : S.Call}
    {k : S.Reply c → Prog S α} (hprog : w.progs i = .call c k) :
    C.Safe (⟨(C.exec c w.state).2, Function.update w.progs i (k (C.exec c w.state).1)⟩ :
      Pool S σ ι α) ∧ ∀ key v, C.Holds w.state key v → C.Holds (C.exec c w.state).2 key v := by
  obtain hguarded | ⟨key, ⟨v, k', hcall, hk'⟩, hno⟩ := h.progs i
  · obtain ⟨hsafe, hsame⟩ := h.step_guarded hexclusive hprog (hprog ▸ hguarded)
    exact ⟨hsafe, fun key v => (hsame key v).mpr⟩
  · obtain ⟨rfl, hk⟩ := Prog.call.inj (hprog.symm.trans hcall)
    cases hk
    exact ⟨h.step_armed hprog hk' hno, fun key' v' hv' => C.holds_act.mpr (.inr hv')⟩

end Step

/-- A program can make any number of calls while no other one is about to add a value. -/
theorem reachable_alone [DecidableEq ι] {w : Pool S σ ι α} {i : ι}
    (h : ∀ j ≠ i, ∀ key v, (w.progs j).nextCall ≠ some (C.act key v)) (n : ℕ) :
    Pool.Reachable C.exec C.Exclusive w ((fun w => w.step C.exec i)^[n] w) := by
  have hsame : ∀ n, ∀ j ≠ i, ((fun w : Pool S σ ι α => w.step C.exec i)^[n] w).progs
      j = w.progs j := by
    intro n j hj
    induction n with
    | zero => rfl
    | succ n ih =>
      rw [Function.iterate_succ_apply', Pool.step_progs_of_ne _ _ hj]
      exact ih
  induction n with
  | zero => exact .refl
  | succ n ih =>
    rw [Function.iterate_succ_apply']
    refine ih.step i fun key _ j hj v => ?_
    rw [hsame n j hj]
    exact h j hj key v

/-- As long as no check overlaps with another program's check and addition, every key has one value
at most, and keeps it. -/
theorem single_of_reachable [DecidableEq ι] {w w' : Pool S σ ι α} (h : C.Safe w)
    (hreach : Pool.Reachable C.exec C.Exclusive w w') :
    C.Safe w' ∧ ∀ key v, C.Holds w.state key v → C.Holds w'.state key v := by
  refine hreach.invariant (I := fun w' => C.Safe w' ∧ ∀ key v, C.Holds w.state key v →
    C.Holds w'.state key v) ⟨h, fun _ _ => id⟩ fun w₁ i c k hw₁ hexclusive hprog => ?_
  obtain ⟨hsafe, hkept⟩ := hw₁.1.step hexclusive hprog
  exact ⟨hsafe, fun key v hv => hkept key v (hw₁.2 key v hv)⟩

end CheckThenAct

end Lofire.Lib
