import Lofire.Broker.Records

/-!
# What the operations on records do

For each building block of the operations on records, what it returns and how it changes the store.
The results about the broker's records use these equations and do not look into the programs again.
-/

namespace Lofire

open Lib

namespace LmdbBrokerStore

variable {α β : Type}

/-- The property has a value. -/
def HasValue (s : LmdbBrokerStore) (p : Bytes) : Prop := s.values p ≠ ∅

instance (s : LmdbBrokerStore) (p : Bytes) : Decidable (HasValue s p) :=
  inferInstanceAs (Decidable (_ ≠ _))

theorem hasValue_iff {s : LmdbBrokerStore} {p : Bytes} : HasValue s p ↔ ∃ v, (p, v) ∈ s := by
  rw [HasValue, ← Finset.nonempty_iff_ne_empty]
  constructor
  · rintro ⟨v, hv⟩
    exact ⟨v, MultiMap.mem_values.mp hv⟩
  · rintro ⟨v, hv⟩
    exact ⟨v, MultiMap.mem_values.mpr hv⟩

theorem first_eq_none_iff {s : LmdbBrokerStore} {p : Bytes} :
    s.first p = none ↔ ¬ HasValue s p := by
  rw [MultiMap.first_eq_none, hasValue_iff, not_exists]

theorem mem_deleteAll {s : LmdbBrokerStore} {p p' v : Bytes} :
    (p', v) ∈ deleteAll p s ↔ p' ≠ p ∧ (p', v) ∈ s := by
  simp [deleteAll, and_comm]

theorem del_eq {s : LmdbBrokerStore} {p : Bytes} :
    del p s = if HasValue s p then .ok (s.deleteAll p) else .error .backendError := by
  unfold del
  by_cases h : HasValue s p
  · rw [if_pos h, if_neg h]
  · rw [if_neg h, if_pos (not_not.mp h)]

theorem exec_replace (s : LmdbBrokerStore) (pre : UInt8) (key : Bytes) (suffix : Option UInt8)
    (v : Bytes) : exec (.replace pre key suffix v) s =
      if HasValue s (computeProperty pre key suffix) then
        (.ok (), insert (computeProperty pre key suffix, v)
          (s.deleteAll (computeProperty pre key suffix)))
      else (.error .backendError, s) := by
  show write ((del (computeProperty pre key suffix) s).map _) s = _
  rw [del_eq]
  split <;> rfl

theorem exec_del (s : LmdbBrokerStore) (pre : UInt8) (key : Bytes) (suffix : Option UInt8) :
    exec (.del pre key suffix) s =
      if HasValue s (computeProperty pre key suffix) then
        (.ok (), s.deleteAll (computeProperty pre key suffix))
      else (.error .backendError, s) := by
  show write (del (computeProperty pre key suffix) s) s = _
  rw [del_eq]
  split <;> rfl

theorem exec_delPropertyValue (s : LmdbBrokerStore) (pre : UInt8) (key : Bytes)
    (suffix : Option UInt8) (v : Bytes) : exec (.delPropertyValue pre key suffix v) s =
      if (computeProperty pre key suffix, v) ∈ s then
        (.ok (), s.erase (computeProperty pre key suffix, v))
      else (.error .backendError, s) := by
  show write (if (computeProperty pre key suffix, v) ∈ s then _ else _) s = _
  split <;> rfl

/-- Run a program that may fail. -/
def runOn (x : BrokerProgE α) (s : LmdbBrokerStore) : Except StorageError α × LmdbBrokerStore :=
  x.run.run exec s

variable {s : LmdbBrokerStore}

@[simp] theorem runOn_pure (a : α) : runOn (pure a) s = (.ok a, s) := rfl

@[simp] theorem runOn_throw (e : StorageError) :
    runOn (throw e : BrokerProgE α) s = (.error e, s) := rfl

theorem runOn_bind (x : BrokerProgE α) (f : α → BrokerProgE β) :
    runOn (x >>= f) s = match runOn x s with
      | (.ok a, s') => runOn (f a) s'
      | (.error e, s') => (.error e, s') := by
  show Prog.run exec (x.run >>= ExceptT.bindCont f) s = _
  rw [Prog.run_bind]
  unfold runOn
  generalize Prog.run exec x.run s = res
  rcases res with ⟨_ | _, s'⟩ <;> rfl

theorem runOn_bind_ok {x : BrokerProgE α} {a : α} {s' : LmdbBrokerStore}
    (h : runOn x s = (.ok a, s')) (f : α → BrokerProgE β) : runOn (x >>= f) s = runOn (f a) s' :=
  Prog.run_bindE_ok h f

theorem runOn_bind_error {x : BrokerProgE α} {e : StorageError} {s' : LmdbBrokerStore}
    (h : runOn x s = (.error e, s')) (f : α → BrokerProgE β) :
    runOn (x >>= f) s = (.error e, s') := Prog.run_bindE_error h f

theorem runOn_bind_eq_ok {x : BrokerProgE α} {f : α → BrokerProgE β} {b : β}
    {s' : LmdbBrokerStore} : runOn (x >>= f) s = (.ok b, s') ↔
      ∃ a s₁, runOn x s = (.ok a, s₁) ∧ runOn (f a) s₁ = (.ok b, s') := by
  rw [runOn_bind]
  obtain ⟨_ | a, s₁⟩ := runOn x s
  · simp
  · constructor
    · exact fun h => ⟨a, s₁, rfl, h⟩
    · rintro ⟨_, _, ⟨⟩, h⟩
      exact h

theorem runOn_lift_bind (x : BrokerProg α) (f : α → BrokerProgE β) :
    runOn (liftM x >>= f) s = runOn (f (x.run exec s).1) (x.run exec s).2 :=
  Prog.run_liftE_bind x f

end LmdbBrokerStore

open LmdbBrokerStore

namespace Record

variable (r : Record) {s : LmdbBrokerStore} {suffix : UInt8} {v : Bytes}

/-- The key of a property in the store. -/
def prop (suffix : UInt8) : Bytes := computeProperty r.PREFIX r.id (some suffix)

/-- The record exists. -/
abbrev Exists (s : LmdbBrokerStore) : Prop := HasValue s (r.prop r.SUFFIX_FOR_EXIST_CHECK)

/-! ## Reads -/

theorem runOn_get (suffix : UInt8) : runOn (r.get suffix) s =
    (match s.first (r.prop suffix) with
      | some value => .ok value
      | none => .error .notFound, s) := rfl

theorem run_doesExist : Prog.run exec r.doesExist s = (decide (r.Exists s), s) := by
  unfold doesExist BrokerStore.isOk
  rw [Prog.run_bind]
  have hget := r.runOn_get (s := s) r.SUFFIX_FOR_EXIST_CHECK
  unfold runOn at hget
  rw [hget]
  cases h : s.first (r.prop r.SUFFIX_FOR_EXIST_CHECK) with
  | none =>
    rw [decide_eq_false (first_eq_none_iff.mp h)]
    rfl
  | some value =>
    have hexists : r.Exists s := hasValue_iff.mpr ⟨value, MultiMap.first_mem h⟩
    rw [decide_eq_true hexists]
    rfl

theorem runOn_openRecord :
    runOn r.openRecord s = (if r.Exists s then .ok () else .error .notFound, s) := by
  unfold openRecord
  rw [runOn_lift_bind, run_doesExist]
  by_cases h : r.Exists s <;> simp [h]

theorem runOn_checkNew :
    runOn r.checkNew s = (if r.Exists s then .error .backendError else .ok (), s) := by
  unfold checkNew
  rw [runOn_lift_bind, run_doesExist]
  by_cases h : r.Exists s <;> simp [h]

/-- A property is read if its first value can be decoded. -/
theorem runOn_property_eq_ok {c : Codec α} {a : α} : runOn (r.property c suffix) s = (.ok a, s) ↔
    ∃ v, s.first (r.prop suffix) = some v ∧ c.fromBytes v = some a := by
  have hget := r.runOn_get (s := s) suffix
  cases hfirst : s.first (r.prop suffix) with
  | none =>
    rw [hfirst] at hget
    unfold property
    rw [runOn_bind_error hget]
    simp
  | some v =>
    rw [hfirst] at hget
    unfold property
    rw [runOn_bind_ok hget]
    cases hbytes : c.fromBytes v with
    | none => simp [hbytes]
    | some a' => simp [hbytes]

theorem runOn_property_state {c : Codec α} : (runOn (r.property c suffix) s).2 = s := by
  have hget := r.runOn_get (s := s) suffix
  unfold property
  cases hfirst : s.first (r.prop suffix) with
  | none =>
    rw [hfirst] at hget
    rw [runOn_bind_error hget]
  | some v =>
    rw [hfirst] at hget
    rw [runOn_bind_ok hget]
    cases c.fromBytes v <;> rfl

/-! ## Writes -/

theorem runOn_put : runOn (r.put suffix v) s = (.ok (), insert (r.prop suffix, v) s) := rfl

theorem runOn_add : runOn (r.add suffix v) s =
    if r.Exists s then (.ok (), insert (r.prop suffix, v) s) else (.error .backendError, s) := by
  unfold add
  rw [runOn_lift_bind, run_doesExist]
  by_cases h : r.Exists s
  · simp only [h]
    rfl
  · simp only [h]
    rfl

theorem runOn_replace : runOn (r.replace suffix v) s =
    if HasValue s (r.prop suffix) then (.ok (),
      insert (r.prop suffix, v) (s.deleteAll (r.prop suffix)))
    else (.error .backendError, s) :=
  exec_replace s r.PREFIX r.id (some suffix) v

/-! ## Deleting a record -/

/-- The store without the properties `suffixes` of the record. -/
def without (suffixes : List UInt8) (s : LmdbBrokerStore) : LmdbBrokerStore :=
  s.filter fun p => p.1 ∉ suffixes.map r.prop

theorem mem_without {suffixes : List UInt8} {p : Bytes} :
    (p, v) ∈ r.without suffixes s ↔ p ∉ suffixes.map r.prop ∧ (p, v) ∈ s := by
  simp [without, and_comm]

theorem prop_inj {suffix suffix' : UInt8} (h : r.prop suffix = r.prop suffix') :
    suffix = suffix' := by
  have h := List.append_cancel_left (List.cons.inj h).2
  exact Option.some.inj (List.singleton_inj.mp h ▸ rfl)

theorem runOn_del (suffix : UInt8) : runOn (BrokerStore.del r.PREFIX r.id (some suffix)) s =
    if HasValue s (r.prop suffix) then (.ok (), s.deleteAll (r.prop suffix))
    else (.error .backendError, s) :=
  exec_del s r.PREFIX r.id (some suffix)

/-- Properties that all have values are all deleted. -/
theorem runOn_delEach {suffixes : List UInt8} (hnodup : suffixes.Nodup)
    (h : ∀ suffix ∈ suffixes, HasValue s (r.prop suffix)) :
    runOn (BrokerStore.delEach r.PREFIX r.id suffixes) s = (.ok (), r.without suffixes s) := by
  induction suffixes generalizing s with
  | nil =>
    have hnone : r.without [] s = s := by simp [without]
    rw [hnone]
    rfl
  | cons suffix suffixes ih =>
    rw [List.nodup_cons] at hnodup
    have hdel : runOn (BrokerStore.del r.PREFIX r.id (some suffix)) s =
        (.ok (), s.deleteAll (r.prop suffix)) := by
      rw [runOn_del, if_pos (h suffix List.mem_cons_self)]
    have hrest : ∀ x ∈ suffixes, HasValue (s.deleteAll (r.prop suffix)) (r.prop x) := by
      intro x hx
      obtain ⟨v, hv⟩ := hasValue_iff.mp (h x (List.mem_cons_of_mem _ hx))
      refine hasValue_iff.mpr ⟨v, mem_deleteAll.mpr ⟨fun he => hnodup.1 ?_, hv⟩⟩
      rw [← r.prop_inj he]
      exact hx
    unfold BrokerStore.delEach
    rw [runOn_bind_ok hdel, ih hnodup.2 hrest]
    congr 1
    ext ⟨p, v⟩
    rw [mem_without, mem_without, mem_deleteAll, List.map_cons,
      List.mem_cons, not_or, and_left_comm,
      and_assoc]

/-- The first property without a value stops the deletion. -/
theorem runOn_delEach_error {suffixes : List UInt8} (hnodup : suffixes.Nodup)
    (h : ∃ suffix ∈ suffixes, ¬ HasValue s (r.prop suffix)) :
    (runOn (BrokerStore.delEach r.PREFIX r.id suffixes) s).1 = .error .backendError := by
  induction suffixes generalizing s with
  | nil => simp at h
  | cons suffix suffixes ih =>
    rw [List.nodup_cons] at hnodup
    unfold BrokerStore.delEach
    by_cases hval : HasValue s (r.prop suffix)
    · have hdel : runOn (BrokerStore.del r.PREFIX r.id (some suffix)) s =
          (.ok (), s.deleteAll (r.prop suffix)) := by rw [runOn_del, if_pos hval]
      rw [runOn_bind_ok hdel]
      obtain ⟨x, hx, hnot⟩ := h
      obtain rfl | hx := List.mem_cons.mp hx
      · exact absurd hval hnot
      · refine ih hnodup.2 ⟨x, hx, fun hv => hnot ?_⟩
        obtain ⟨v, hv⟩ := hasValue_iff.mp hv
        exact hasValue_iff.mpr ⟨v, (mem_deleteAll.mp hv).2⟩
    · have hdel : runOn (BrokerStore.del r.PREFIX r.id (some suffix)) s =
          (.error .backendError, s) := by rw [runOn_del, if_neg hval]
      rw [runOn_bind_error hdel]

theorem delRecord_eq {suffixes : List UInt8} (hne : suffixes ≠ []) :
    runOn (r.delRecord suffixes) s = runOn (BrokerStore.delEach r.PREFIX r.id suffixes) s := by
  unfold delRecord BrokerStore.delAll
  rw [runOn_bind]
  have hempty : suffixes.isEmpty = false := by simpa using hne
  simp only [hempty, Bool.false_eq_true, if_false]
  generalize runOn (BrokerStore.delEach r.PREFIX r.id suffixes) s = res
  rcases res with ⟨_ | _, s'⟩ <;> rfl

end Record

/-! ## The calls of a program -/

namespace BrokerCall

/-- The key that a call is about. -/
def property : BrokerCall → Bytes
  | get pre key suffix | getAll pre key suffix | hasPropertyValue pre key suffix _
  | put pre key suffix _ | replace pre key suffix _ | del pre key suffix
  | delPropertyValue pre key suffix _ => computeProperty pre key suffix

def IsRead : BrokerCall → Prop
  | get .. | getAll .. | hasPropertyValue .. => True
  | _ => False

variable {c : BrokerCall} {s : LmdbBrokerStore} {p v : Bytes}

theorem exec_of_isRead (h : c.IsRead) : (exec c s).2 = s := by
  cases c <;> first | rfl | cases h

/-- A call keeps the values of the other properties. -/
theorem mem_exec_of_ne (h : c.property ≠ p) : (p, v) ∈ (exec c s).2 ↔ (p, v) ∈ s := by
  have hne := fun h' : p = c.property => h h'.symm
  cases c with
  | get | getAll | hasPropertyValue => rfl
  | put pre key suffix value =>
    exact Finset.mem_insert.trans ⟨fun hv => hv.resolve_left
      fun he => hne (congrArg Prod.fst he), .inr⟩
  | replace pre key suffix value =>
    rw [exec_replace]
    split
    · refine Finset.mem_insert.trans ⟨fun hv => ?_, fun hv => .inr (mem_deleteAll.mpr ⟨hne, hv⟩)⟩
      obtain he | hv := hv
      · exact absurd (congrArg Prod.fst he) hne
      · exact (mem_deleteAll.mp hv).2
    · rfl
  | del pre key suffix =>
    rw [exec_del]
    split
    · exact mem_deleteAll.trans (and_iff_right hne)
    · rfl
  | delPropertyValue pre key suffix value =>
    rw [exec_delPropertyValue]
    split
    · exact Finset.mem_erase.trans (and_iff_right fun he => hne (congrArg Prod.fst he))
    · rfl

end BrokerCall

theorem along_bindE {α β : Type} {p : LmdbBrokerStore → BrokerCall → Prop} {x : BrokerProgE α}
    {f : α → BrokerProgE β} {s : LmdbBrokerStore} (hx : x.run.Along exec p s)
    (hf : ∀ a s', runOn x s = (.ok a, s') → (f a).run.Along exec p s') :
    (x >>= f).run.Along exec p s := by
  rw [ExceptT.run_bind]
  refine Prog.along_bind.mpr ⟨hx, ?_⟩
  have hf : ∀ a s', Prog.run exec x.run s = (.ok a, s') → (f a).run.Along exec p s' := hf
  generalize Prog.run exec x.run s = res at hf
  rcases res with ⟨_ | a, s'⟩
  · trivial
  · exact hf a s' rfl

/-- Every call that the program can make satisfies `p`. -/
structure Every {α : Type} (p : BrokerCall → Prop) (x : BrokerProg α) : Prop where
  calls : Prog.Calls (S := brokerStore) p x

namespace Every

variable {α β : Type} {p : BrokerCall → Prop} {r : Record} {suffix : UInt8} {v : Bytes}

theorem along {x : BrokerProg α} (h : Every p x) (s : LmdbBrokerStore) :
    x.Along exec (fun _ (c : BrokerCall) => p c) s := h.calls.along exec s

theorem pure (a : α) : Every p (Pure.pure a : BrokerProg α) := ⟨trivial⟩

theorem bind {x : BrokerProg α} {f : α → BrokerProg β} (hx : Every p x) (hf : ∀ a, Every p (f a)) :
    Every p (x >>= f) :=
  ⟨Prog.calls_bind hx.calls fun a => (hf a).calls⟩

theorem perform {c : BrokerCall} (h : p c) : Every p (Prog.perform (S := brokerStore) c) :=
  ⟨⟨h, fun _ => trivial⟩⟩

theorem bindE {x : BrokerProgE α} {f : α → BrokerProgE β} (hx : Every p x.run)
    (hf : ∀ a, Every p (f a).run) : Every p (x >>= f).run := by
  rw [ExceptT.run_bind]
  refine bind hx fun res => ?_
  cases res with
  | error e => exact pure _
  | ok a => exact hf a

theorem liftE {x : BrokerProg α} (hx : Every p x) : Every p (liftM x : BrokerProgE α).run :=
  bind hx fun _ => pure _

theorem put (h : p (.put r.PREFIX r.id (some suffix) v)) : Every p (r.put suffix v).run := perform h

theorem replace (h : p (.replace r.PREFIX r.id (some suffix) v)) :
    Every p (r.replace suffix v).run :=
  perform h

theorem remove (h : p (.delPropertyValue r.PREFIX r.id (some suffix) v)) :
    Every p (r.remove suffix v).run := perform h

theorem delRecord {suffixes : List UInt8}
    (h : ∀ suffix ∈ suffixes, p (.del r.PREFIX r.id (some suffix))) (hne : suffixes ≠ []) :
    Every p (r.delRecord suffixes).run := by
  have heach : ∀ l ⊆ suffixes, Every p (BrokerStore.delEach r.PREFIX r.id l).run := by
    intro l hl
    induction l with
    | nil => exact pure _
    | cons x l ih =>
      rw [List.cons_subset] at hl
      exact bindE (perform (h x hl.1)) fun _ => ih hl.2
  refine bindE (heach suffixes (List.Subset.refl _)) fun _ => ?_
  cases suffixes with
  | nil => exact absurd rfl hne
  | cons x l => exact pure _

section Reads

variable (hread : ∀ c : BrokerCall, c.IsRead → p c)

include hread

theorem doesExist : Every p r.doesExist := by
  refine bind (perform (hread _ trivial)) fun res => ?_
  cases res <;> exact pure _

theorem openRecord : Every p r.openRecord.run := by
  refine bindE (liftE (doesExist hread)) fun found => ?_
  cases found <;> exact pure _

theorem checkNew : Every p r.checkNew.run := by
  refine bindE (liftE (doesExist hread)) fun found => ?_
  cases found <;> exact pure _

theorem property {c : Codec α} : Every p (r.property c suffix).run := by
  refine bindE (perform (hread _ trivial)) fun bytes => ?_
  cases c.fromBytes bytes <;> exact pure _

theorem add (h : p (.put r.PREFIX r.id (some suffix) v)) : Every p (r.add suffix v).run := by
  refine bindE (liftE (doesExist hread)) fun found => ?_
  cases found
  · exact pure _
  · exact put h

theorem set (h : p (.replace r.PREFIX r.id (some suffix) v)) : Every p (r.set suffix v).run := by
  refine bindE (liftE (doesExist hread)) fun found => ?_
  cases found
  · exact pure _
  · exact replace h

end Reads

end Every

end Lofire
