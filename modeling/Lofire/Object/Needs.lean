import Lofire.Object.Load

/-!
# The blocks that a load needs

A load that succeeds has found every block that it needs (`loadView_present`). So views that agree
on these blocks give the same result (`loadView_congr`), and the needed blocks are the same in a
smaller view from which the object still loads (`Needs.of_present`).
-/

namespace Lofire

open Lib

namespace Object

variable {P : Primitives} {v v' : View}

theorem Needs.root (v : View) (id : BlockId) : Needs v id id := ⟨id, .refl, .refl⟩

/-! ## A load that succeeds -/

/-- If no id of a level is missing, all its blocks are in the view and their children are the next
level. -/
theorem loadLevel_present {parents children : List BlockId} {blocks : List Block}
    {missing : List BlockId} (h : (loadLevel (m := Id) v parents children blocks missing).2.2 =
      []) :
    missing = [] ∧
      (∀ c ∈ children, c ∈ (loadLevel (m := Id) v parents children blocks missing).1) ∧
      ∀ p ∈ parents, ∃ b, v p = .ok b ∧
        ∀ c ∈ b.children, c ∈ (loadLevel (m := Id) v parents children blocks missing).1 := by
  induction parents generalizing children blocks missing with
  | nil => exact ⟨h, fun _ hc => hc, fun _ hp => absurd hp List.not_mem_nil⟩
  | cons p parents ih =>
    cases hp : v p with
    | error e =>
      simp only [loadLevel, id_bind, hp] at h
      obtain ⟨hmissing, -, -⟩ := ih h
      simp at hmissing
    | ok b =>
      simp only [loadLevel, id_bind, hp] at h ⊢
      obtain ⟨hmissing, hchildren, hparents⟩ := ih h
      refine ⟨hmissing, fun c hc => hchildren c (List.mem_append_left _ hc), fun q hq => ?_⟩
      obtain rfl | hq := List.mem_cons.mp hq
      · exact ⟨b, hp, fun c hc => hchildren c (List.mem_append_right _ (List.mem_reverse.mpr hc))⟩
      · exact hparents q hq

theorem loadTree_present {fuel : Nat} {parents : List BlockId} {blocks bs : List Block}
    {missing : List BlockId}
    (h : loadTree (m := Id) v fuel parents blocks missing = some (bs, [])) :
    missing = [] ∧ ∀ p ∈ parents, ∀ x, InTree v p x → ∃ b, v x = .ok b := by
  induction fuel generalizing parents blocks missing with
  | zero => cases h
  | succ fuel ih =>
    rw [loadTree_succ] at h
    split at h
    · rename_i hempty
      have hlevel := congrArg Prod.snd (Option.some.inj h)
      obtain ⟨hmissing, -, hparents⟩ := loadLevel_present hlevel
      refine ⟨hmissing, fun p hp x hx => ?_⟩
      obtain ⟨b, hb, hchildren⟩ := hparents p hp
      obtain rfl | ⟨c, ⟨b', hb', hc⟩, -⟩ := hx.cases_head
      · exact ⟨b, hb⟩
      · rw [hb, Except.ok.injEq] at hb'
        subst hb'
        have hc := hchildren c hc
        rw [List.isEmpty_iff.mp hempty] at hc
        cases hc
    · obtain ⟨hlevel, htree⟩ := ih h
      obtain ⟨hmissing, -, hparents⟩ := loadLevel_present hlevel
      refine ⟨hmissing, fun p hp x hx => ?_⟩
      obtain ⟨b, hb, hchildren⟩ := hparents p hp
      obtain rfl | ⟨c, ⟨b', hb', hc⟩, hx⟩ := hx.cases_head
      · exact ⟨b, hb⟩
      · rw [hb, Except.ok.injEq] at hb'
        subst hb'
        exact htree c (hchildren c hc) x hx

/-- A load of an object whose root refers to another object loads that object. -/
theorem loadDeps_ok_load {lows : List Block} {b : Block} {r : ObjectRef}
    (hb : b.deps = .depListRef r) {fuel : Nat} {o : Object}
    (h : loadDeps P v (lows ++ [b]) fuel = some (.ok o)) :
    ∃ obj, loadView P v r.id (some r.key) fuel = some (.ok obj) := by
  simp only [loadDeps, List.getLast?_concat, Option.bind_some, hb] at h
  obtain ⟨res, hload, hrest⟩ := Option.bind_eq_some_iff.mp h
  cases res with
  | error e => cases hrest
  | ok obj => exact ⟨obj, hload⟩

/-- A load that succeeds has found every block it needs. -/
theorem loadView_present {id : ObjectId} {key : Option SymKey} {fuel : Nat} {o : Object}
    (h : loadView P v id key fuel = some (.ok o)) {x : BlockId} (hx : Needs v id x) :
    ∃ b, v x = .ok b := by
  induction fuel generalizing id key o with
  | zero => cases h
  | succ fuel ih =>
    rw [loadView_succ] at h
    obtain ⟨⟨blocks, missing⟩, htree, h⟩ := Option.bind_eq_some_iff.mp h
    split at h
    · cases h
    · rename_i hmissing
      have hmissing : missing = [] := by simpa using hmissing
      subst hmissing
      obtain ⟨r, hpath, hx⟩ := hx
      obtain rfl | ⟨r', ⟨b, ref, hb, hdeps, rfl⟩, hpath⟩ := hpath.cases_head
      · exact (loadTree_present htree).2 id List.mem_cons_self x hx
      · obtain ⟨b', bs, hb', rfl⟩ := loadTree_root htree
        rw [hb, Except.ok.injEq] at hb'
        subst hb'
        rw [setRootKey_concat] at h
        have hroot : (if key.isSome then b.setKey key else b).deps = .depListRef ref := by
          split
          · exact hdeps
          · exact hdeps
        obtain ⟨obj, hload⟩ := loadDeps_ok_load hroot h
        exact ih hload ⟨r, hpath, hx⟩

/-! ## Two views -/

/-- Views that agree on the needed blocks give the same result. -/
theorem loadView_congr {id : ObjectId} (h : ∀ x, Needs v id x → v' x = v x) (key : Option SymKey)
    (fuel : Nat) : loadView P v' id key fuel = loadView P v id key fuel :=
  load_yields Yields.id fuel h key

/-- An object that loads from a view loads from a larger one. -/
theorem loadView_of_sub (hsub : ∀ x b, v x = .ok b → v' x = .ok b) {id : ObjectId}
    {key : Option SymKey} {fuel : Nat} {o : Object} (h : loadView P v id key fuel = some (.ok o)) :
    loadView P v' id key fuel = some (.ok o) := by
  rw [← h]
  refine loadView_congr (fun x hx => ?_) key fuel
  obtain ⟨b, hb⟩ := loadView_present h hx
  rw [hb, hsub x b hb]

/-- In a smaller view from which the object loads, it needs the same blocks. -/
theorem Needs.of_present {id : ObjectId} (hsub : ∀ x b, v' x = .ok b → v x = .ok b)
    (hpresent : ∀ x, Needs v' id x → ∃ b, v' x = .ok b) {x : BlockId} (hx : Needs v id x) :
    Needs v' id x := by
  obtain ⟨r, hpath, hx⟩ := hx
  have hr : Relation.ReflTransGen (Refers v') id r := by
    clear hx
    induction hpath with
    | refl => exact .refl
    | @tail p r _ hstep ih =>
      obtain ⟨b, ref, hb, href, rfl⟩ := hstep
      obtain ⟨b', hb'⟩ := hpresent p ⟨p, ih, .refl⟩
      have hbb' := hsub p b' hb'
      rw [hb, Except.ok.injEq] at hbb'
      subst hbb'
      exact ih.tail ⟨b, ref, hb', href, rfl⟩
  refine ⟨r, hr, ?_⟩
  induction hx with
  | refl => exact .refl
  | @tail p c _ hstep ih =>
    obtain ⟨b, hb, hc⟩ := hstep
    obtain ⟨b', hb'⟩ := hpresent p ⟨r, hr, ih⟩
    have hbb' := hsub p b' hb'
    rw [hb, Except.ok.injEq] at hbb'
    subst hbb'
    exact ih.tail ⟨b, hb', hc⟩

end Object

end Lofire
