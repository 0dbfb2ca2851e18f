import Lofire.Broker.NoTrace

/-!
# Creating a record

`Overlay::create` and `Peer::create` put the properties of a record one after the other, each in a
transaction of its own, and return at the first `put` that fails. The properties before it stay, and
the first of them is the one by which the record exists. The creation of a record is all or nothing
if and only if it puts nothing, or everything (`create_all_or_nothing_iff`).
-/

namespace Lofire

open Lib LmdbBrokerStore

namespace LmdbBrokerStore

variable {α β : Type} {puts : FaultPattern StorageError} {s : LmdbBrokerStore} {n : ℕ}

def isPut : BrokerCall → Bool
  | .put .. => true
  | _ => false

/-- A call, which fails if it is a `put` and the pattern says so. -/
def execPuts (puts : FaultPattern StorageError) (c : BrokerCall) (w : Counted LmdbBrokerStore) :
    c.Reply × Counted LmdbBrokerStore :=
  FaultPattern.execWith (S := brokerStore) isPut BrokerCall.failed exec puts c w

theorem execPuts_error {c : BrokerCall} (hput : isPut c = true)
    {e : StorageError} (h : puts n = some e) :
    execPuts puts c ⟨s, n⟩ = (c.failed e, ⟨s, n + 1⟩) :=
  FaultPattern.execWith_of_some (S := brokerStore) BrokerCall.failed exec hput h

theorem execPuts_ok {c : BrokerCall} (hput : isPut c = true) (h : puts n = none) :
    execPuts puts c ⟨s, n⟩ = ((exec c s).1, ⟨(exec c s).2, n + 1⟩) :=
  FaultPattern.execWith_of_none (S := brokerStore) BrokerCall.failed exec hput h

/-- Run a program that may fail, and of which any `put` may fail. -/
def runPuts (puts : FaultPattern StorageError) (x : BrokerProgE α) (w : Counted LmdbBrokerStore) :
    Except StorageError α × Counted LmdbBrokerStore := x.run.run (execPuts puts) w

theorem runPuts_bind_ok {x : BrokerProgE α} {a : α} {w w' : Counted LmdbBrokerStore}
    (h : runPuts puts x w = (.ok a, w')) (f : α → BrokerProgE β) :
    runPuts puts (x >>= f) w = runPuts puts (f a) w' := Prog.run_bindE_ok h f

theorem runPuts_bind_error {x : BrokerProgE α} {e : StorageError} {w w' : Counted LmdbBrokerStore}
    (h : runPuts puts x w = (.error e, w')) (f : α → BrokerProgE β) :
    runPuts puts (x >>= f) w = (.error e, w') := Prog.run_bindE_error h f

/-- If no `put` fails, the run is that of the program alone. -/
theorem runPuts_none (x : BrokerProgE α) (s : LmdbBrokerStore) : runOn x s =
    ((runPuts (fun _ => none) x ⟨s, 0⟩).1, (runPuts (fun _ => none) x ⟨s, 0⟩).2.state) := by
  obtain ⟨hres, hstate⟩ :=
    @FaultPattern.run_none brokerStore _ _ isPut BrokerCall.failed exec _ x.run ⟨s, 0⟩
  exact Prod.ext hres.symm hstate.symm

end LmdbBrokerStore

namespace Record

variable {r : Record} {puts : FaultPattern StorageError} {s : LmdbBrokerStore}
  {n : ℕ} {suffix : UInt8}
  {v : Bytes} {e : StorageError}

theorem runPuts_put_error (h : puts n = some e) :
    runPuts puts (r.put suffix v) ⟨s, n⟩ = (.error e, ⟨s, n + 1⟩) :=
  @execPuts_error puts s n (.put r.PREFIX r.id (some suffix) v) rfl e h

theorem runPuts_put (h : puts n = none) :
    runPuts puts (r.put suffix v) ⟨s, n⟩ = (.ok (), ⟨insert (r.prop suffix, v) s, n + 1⟩) :=
  @execPuts_ok puts s n (.put r.PREFIX r.id (some suffix) v) rfl h

/-- The look for a record does not fail. -/
theorem runPuts_checkNew : runPuts puts r.checkNew ⟨s, n⟩ =
    (if r.Exists s then .error .backendError else .ok (), ⟨s, n⟩) := by
  have hreads : Every (fun c => isPut c = false) r.checkNew.run :=
    .checkNew fun c hc => by cases c <;> first | rfl | cases hc
  have hrun : runPuts puts r.checkNew ⟨s, n⟩ =
    ((runOn r.checkNew s).1, ⟨(runOn r.checkNew s).2, n⟩) :=
    FaultPattern.run_of_others (S := brokerStore) BrokerCall.failed exec hreads.calls
  rw [hrun, runOn_checkNew]

/-- Put properties one after the other. -/
def putAll (r : Record) : UInt8 × Bytes → List (UInt8 × Bytes) → BrokerProgE Unit
  | p, [] => r.put p.1 p.2
  | p, q :: l => do
    r.put p.1 p.2
    r.putAll q l

variable {p q : UInt8 × Bytes} {l : List (UInt8 × Bytes)}

/-- Nothing is put after a `put` that fails. -/
theorem runPuts_putAll_error (h : puts n = some e) :
    runPuts puts (r.putAll p l) ⟨s, n⟩ = (.error e, ⟨s, n + 1⟩) := by
  cases l with
  | nil => exact runPuts_put_error h
  | cons q l => exact runPuts_bind_error (runPuts_put_error h) _

theorem runPuts_putAll_cons (h : puts n = none) : runPuts puts (r.putAll p (q :: l)) ⟨s, n⟩ =
    runPuts puts (r.putAll q l) ⟨insert (r.prop p.1, p.2) s, n + 1⟩ :=
  runPuts_bind_ok (runPuts_put h) _

/-- The properties are all put if no `put` fails. -/
theorem runPuts_putAll (h : ∀ i ≤ l.length, puts (n + i) = none) :
    ∃ w, runPuts puts (r.putAll p l) ⟨s, n⟩ = (.ok (), w) ∧
      ∀ x, x ∈ w.state ↔ x ∈ s ∨ x ∈ (p :: l).map fun y => (r.prop y.1, y.2) := by
  induction l generalizing s n p with
  | nil =>
    refine ⟨_, runPuts_put (h 0 (Nat.zero_le _)), fun x => ?_⟩
    rw [Finset.mem_insert, or_comm]
    simp
  | cons q l ih =>
    have hrest : ∀ i ≤ l.length, puts (n + 1 + i) = none := fun i hi => by
      rw [Nat.add_right_comm]
      exact h (i + 1) (Nat.succ_le_succ hi)
    obtain ⟨w, hrun, hmem⟩ := @ih (insert (r.prop p.1, p.2) s) (n + 1) q hrest
    refine ⟨w, (runPuts_putAll_cons (h 0 (Nat.zero_le _))).trans hrun, fun x => ?_⟩
    rw [hmem, Finset.mem_insert, or_comm (a := x = _), or_assoc,
      List.map_cons (l := q :: l), List.mem_cons]

theorem first_of_runPuts_putAll (h : (runPuts puts (r.putAll p l) ⟨s, n⟩).1 = .ok ()) :
    puts n = none := by
  cases hput : puts n with
  | none => rfl
  | some e =>
    rw [runPuts_putAll_error hput] at h
    cases h

/-- The properties are put only if no `put` fails. -/
theorem of_runPuts_putAll (h : (runPuts puts (r.putAll p l) ⟨s, n⟩).1 = .ok ()) :
    ∀ i ≤ l.length, puts (n + i) = none := by
  have hfirst := first_of_runPuts_putAll h
  induction l generalizing s n p with
  | nil =>
    intro i hi
    obtain rfl := Nat.le_zero.mp hi
    exact hfirst
  | cons q l ih =>
    rw [runPuts_putAll_cons hfirst] at h
    intro i hi
    cases i with
    | zero => exact hfirst
    | succ i =>
      rw [← Nat.succ_add_eq_add_succ]
      exact ih h (first_of_runPuts_putAll h) i (Nat.le_of_succ_le_succ hi)

/-- What the store has stays. -/
theorem mem_runPuts_putAll {x : Bytes × Bytes} (hx : x ∈ s) :
    x ∈ (runPuts puts (r.putAll p l) ⟨s, n⟩).2.state := by
  induction l generalizing s n p with
  | nil =>
    cases hput : puts n with
    | some e =>
      rw [runPuts_putAll_error hput]
      exact hx
    | none =>
      have hrun : runPuts puts (r.putAll p []) ⟨s, n⟩ = _ := runPuts_put hput
      rw [hrun]
      exact Finset.mem_insert_of_mem hx
  | cons q l ih =>
    cases hput : puts n with
    | some e =>
      rw [runPuts_putAll_error hput]
      exact hx
    | none =>
      rw [runPuts_putAll_cons hput]
      exact ih (Finset.mem_insert_of_mem hx)

/-- The first property stays if its `put` does not fail. -/
theorem first_mem_runPuts_putAll (h : puts n = none) :
    (r.prop p.1, p.2) ∈ (runPuts puts (r.putAll p l) ⟨s, n⟩).2.state := by
  cases l with
  | nil =>
    have hrun : runPuts puts (r.putAll p []) ⟨s, n⟩ = _ := runPuts_put h
    rw [hrun]
    exact Finset.mem_insert_self ..
  | cons q l =>
    rw [runPuts_putAll_cons h]
    exact mem_runPuts_putAll (Finset.mem_insert_self ..)

/-- Create a record: it exists by its first property. -/
def createWith (r : Record) (first : Bytes) (others : List (UInt8 × Bytes)) : BrokerProgE Unit := do
  r.checkNew
  r.putAll (r.SUFFIX_FOR_EXIST_CHECK, first) others

variable {first : Bytes} {others : List (UInt8 × Bytes)}

theorem runPuts_createWith_found (h : r.Exists s) :
    runPuts puts (r.createWith first others) ⟨s, n⟩ = (.error .backendError, ⟨s, n⟩) := by
  refine runPuts_bind_error ?_ _
  rw [runPuts_checkNew, if_pos h]

theorem runPuts_createWith (h : ¬ r.Exists s) : runPuts puts (r.createWith first others) ⟨s, n⟩ =
    runPuts puts (r.putAll (r.SUFFIX_FOR_EXIST_CHECK, first) others) ⟨s, n⟩ := by
  refine runPuts_bind_ok (a := ()) ?_ _
  rw [runPuts_checkNew, if_neg h]

/-- A new record is created if no `put` fails. -/
theorem runOn_createWith (h : ¬ r.Exists s) :
    ∃ s', runOn (r.createWith first others) s = (.ok (), s') ∧
    ∀ x, x ∈ s' ↔ x ∈ s ∨
      x ∈ ((r.SUFFIX_FOR_EXIST_CHECK, first) :: others).map fun y => (r.prop y.1, y.2) := by
  obtain ⟨w, hrun, hmem⟩ := @runPuts_putAll r (fun _ => none) s 0
    (r.SUFFIX_FOR_EXIST_CHECK, first) others fun _ _ => rfl
  have hnone := runPuts_none (r.createWith first others) s
  rw [runPuts_createWith h, hrun] at hnone
  exact ⟨w.state, hnone, hmem⟩

end Record

/-! ## The records of overlays and peers -/

/-- The creation of a record that consists of several properties. -/
inductive Creation
  | overlay (id : OverlayId) (secret : SymKey) (repo : Option PubKey) (now : Timestamp)
  | peer (advert : PeerAdvert)

namespace Creation

def prog : Creation → BrokerProgE Unit
  | overlay id secret repo now => Overlay.create id secret repo now
  | peer advert => Peer.create advert

def record : Creation → Record
  | overlay id _ _ _ => Overlay.record id
  | peer advert => Peer.record advert.peer

/-- The property by which the record exists. -/
def first : Creation → Bytes
  | overlay _ secret _ _ => Reference.symKey.encode secret
  | peer advert => Codec.u32.encode advert.version

/-- The properties that are put after the first one. -/
def others : Creation → List (UInt8 × Bytes)
  | overlay _ _ (some repo) now => [(Overlay.REPO, Reference.pubKey.encode repo),
      (Overlay.META, OverlayMeta.codec.encode ⟨1, now⟩)]
  | overlay _ _ none now => [(Overlay.META, OverlayMeta.codec.encode ⟨1, now⟩)]
  | peer advert => [(Peer.ADVERT, Peer.peerAdvert.encode advert)]

/-- The properties of the new record. -/
def values (c : Creation) : List (UInt8 × Bytes) :=
  (c.record.SUFFIX_FOR_EXIST_CHECK, c.first) :: c.others

theorem prog_eq (c : Creation) : c.prog = c.record.createWith c.first c.others := by
  cases c with
  | overlay id secret repo now => cases repo <;> rfl
  | peer advert => rfl

/-- The operations that create the record if it does not exist. -/
def attempts : Creation → List (BrokerProgE Unit)
  | overlay id secret repo now => [Overlay.create id secret repo now]
  | peer advert => [Peer.create advert, Peer.updateOrCreate advert]

variable {c c' : Creation} {puts : FaultPattern StorageError} {s s' : LmdbBrokerStore}

/-- Run the creation, of which any `put` may fail. -/
def run (c : Creation) (puts : FaultPattern StorageError) (s : LmdbBrokerStore) :
    Except StorageError Unit × LmdbBrokerStore :=
  ((runPuts puts c.prog ⟨s, 0⟩).1, (runPuts puts c.prog ⟨s, 0⟩).2.state)

theorem run_found (h : c.record.Exists s) : c.run puts s = (.error .backendError, s) := by
  rw [run, prog_eq, Record.runPuts_createWith_found h]

theorem run_new (h : ¬ c.record.Exists s) : c.run puts s =
    ((runPuts puts (c.record.putAll (c.record.SUFFIX_FOR_EXIST_CHECK, c.first) c.others) ⟨s, 0⟩).1,
      (runPuts puts (c.record.putAll (c.record.SUFFIX_FOR_EXIST_CHECK, c.first) c.others)
        ⟨s, 0⟩).2.state) := by
  rw [run, prog_eq, Record.runPuts_createWith h]

/-- The creation succeeds if and only if no `put` fails. -/
theorem run_eq_ok (h : ¬ c.record.Exists s) :
    (∃ s', c.run puts s = (.ok (), s')) ↔ ∀ i ≤ c.others.length, puts i = none := by
  rw [run_new h]
  constructor
  · rintro ⟨s', hrun⟩ i hi
    have hok := Record.of_runPuts_putAll (congrArg Prod.fst hrun) i hi
    rwa [Nat.zero_add] at hok
  · intro hputs
    obtain ⟨w, hrun, -⟩ := @Record.runPuts_putAll c.record puts s 0
      (c.record.SUFFIX_FOR_EXIST_CHECK, c.first) c.others fun i hi => by
        rw [Nat.zero_add]
        exact hputs i hi
    rw [hrun]
    exact ⟨w.state, rfl⟩

/-- Nothing is put if the first `put` fails. -/
theorem run_first (h : ¬ c.record.Exists s) {e : StorageError} (hput : puts 0 = some e) :
    c.run puts s = (.error e, s) := by
  rw [run_new h, Record.runPuts_putAll_error hput]

/-- The record exists if the first `put` does not fail. -/
theorem exists_run (h : ¬ c.record.Exists s) (hput : puts 0 = none) :
    c.record.Exists (c.run puts s).2 := by
  rw [run_new h]
  exact hasValue_iff.mpr ⟨c.first, Record.first_mem_runPuts_putAll
    (p := (c.record.SUFFIX_FOR_EXIST_CHECK, c.first)) hput⟩

/-- The store has no property of the record. -/
def Absent (c : Creation) (s : LmdbBrokerStore) : Prop := ∀ suffix v, (c.record.prop suffix, v) ∉ s

/-- A creation that has failed has left the store as it was: the record can be created again, and
has the new values only. -/
structure Undone (c : Creation) (s s' : LmdbBrokerStore) : Prop where
  unchanged : s' = s
  again : ¬ c.record.Exists s → ∀ c' : Creation, c'.record = c.record → ∀ x ∈ c'.attempts,
    ∃ s'', runOn x s' = (.ok (), s'') ∧
      ∀ suffix v, (c.record.prop suffix, v) ∈ s'' ↔ (suffix, v) ∈ c'.values

theorem exists_attempt (c : Creation) : ∃ x, x ∈ c.attempts := by
  cases c with
  | overlay id secret repo now => exact ⟨_, List.mem_cons_self⟩
  | peer advert => exact ⟨_, List.mem_cons_self⟩

/-- A record that does not exist is created, and keeps the values that it has. -/
theorem runOn_attempt (hnot : ¬ c.record.Exists s) {x : BrokerProgE Unit} (hx : x ∈ c.attempts) :
    ∃ s', runOn x s = (.ok (), s') ∧ ∀ suffix v, (c.record.prop suffix, v) ∈ s' ↔
      (c.record.prop suffix, v) ∈ s ∨ (suffix, v) ∈ c.values := by
  have hprog : runOn x s = runOn c.prog s := by
    cases c with
    | overlay id secret repo now =>
      obtain rfl := List.mem_singleton.mp hx
      rfl
    | peer advert =>
      obtain rfl | hx := List.mem_cons.mp hx
      · rfl
      · obtain rfl := List.mem_singleton.mp hx
        exact (RecordOp.runOn_peerUpdateOrCreate advert).trans (if_neg hnot)
  obtain ⟨s', hrun, hmem⟩ := @Record.runOn_createWith c.record s c.first c.others hnot
  rw [hprog, prog_eq]
  refine ⟨s', hrun, fun suffix v => (hmem _).trans (or_congr_right ?_)⟩
  rw [List.mem_map]
  constructor
  · rintro ⟨y, hy, heq⟩
    obtain ⟨hprop, rfl⟩ := Prod.mk.inj heq
    rw [← c.record.prop_inj hprop]
    exact hy
  · exact fun h => ⟨(suffix, v), h, rfl⟩

/-- A function that is not constant on two bytes has another value than a given one. -/
theorem exists_apply_ne {τ : Type} [OfNat τ 0] [OfNat τ 1] {f : τ → Bytes}
    (v : Bytes) (hf : f 0 ≠ f 1) :
    ∃ t, f t ≠ v := by
  by_contra h
  rw [not_exists] at h
  exact hf ((not_not.mp (h 0)).trans (not_not.mp (h 1)).symm)

/-- Some creation of the record does not give a property the value, unless it is the first one. -/
theorem exists_without (c : Creation) {suffix : UInt8}
    (hne : suffix ≠ c.record.SUFFIX_FOR_EXIST_CHECK)
    (v : Bytes) : ∃ c' : Creation, c'.record = c.record ∧ (suffix, v) ∉ c'.values := by
  cases c with
  | overlay id secret repo now =>
    obtain ⟨t, ht⟩ := exists_apply_ne (f := fun t => OverlayMeta.codec.encode ⟨1, t⟩) v fun h =>
      absurd (congrArg OverlayMeta.lastUsed (Codec.encode_inj _ h)) (by decide)
    refine ⟨overlay id secret none t, rfl, fun h => ?_⟩
    obtain h | h := List.mem_cons.mp h
    · exact hne (congrArg Prod.fst h)
    · exact ht (congrArg Prod.snd (List.mem_singleton.mp h)).symm
  | peer advert =>
    obtain ⟨t, ht⟩ :=
      exists_apply_ne (f := fun t => Peer.peerAdvert.encode { advert with ttl := t }) v
      fun h => absurd (congrArg PeerAdvert.ttl (Codec.encode_inj _ h)) (by decide : (0 : UInt8) ≠ 1)
    refine ⟨peer { advert with ttl := t }, rfl, fun h => ?_⟩
    obtain h | h := List.mem_cons.mp h
    · exact hne (congrArg Prod.fst h)
    · exact ht (congrArg Prod.snd (List.mem_singleton.mp h)).symm

/-- A creation is all or nothing if and only if it puts everything or nothing, and nothing is left
of an earlier record if it puts nothing. -/
theorem create_all_or_nothing_iff (c : Creation) (puts : FaultPattern StorageError)
    (s : LmdbBrokerStore) :
    (∀ e s', c.run puts s = (.error e, s') → c.Undone s s') ↔
      c.record.Exists s ∨ (∀ i ≤ c.others.length, puts i = none) ∨
      (puts 0 ≠ none ∧ c.Absent s) := by
  by_cases hexists : c.record.Exists s
  · refine iff_of_true (fun e s' hrun => ⟨?_, fun hnot => absurd hexists hnot⟩) (.inl hexists)
    rw [run_found hexists] at hrun
    exact (congrArg Prod.snd hrun).symm
  · rw [or_iff_right hexists, ← run_eq_ok hexists]
    constructor
    · intro hundone
      refine or_iff_not_imp_left.mpr fun hfailed => ?_
      cases hrun : c.run puts s with | mk res s' => ?_
      cases res with
      | ok u => exact absurd ⟨s', hrun⟩ hfailed
      | error e =>
        obtain ⟨rfl, hagain⟩ := hundone e s' hrun
        refine ⟨fun hput => hexists ?_, fun suffix v hv => ?_⟩
        · have hexists' := exists_run hexists hput
          rwa [hrun] at hexists'
        · -- a value that is left of an earlier record is not one of the new values
          have hne : suffix ≠ c.record.SUFFIX_FOR_EXIST_CHECK := by
            rintro rfl
            exact hexists (hasValue_iff.mpr ⟨v, hv⟩)
          obtain ⟨c', hrecord, hnew⟩ := exists_without c hne v
          obtain ⟨x, hx⟩ := c'.exists_attempt
          obtain ⟨s₁, hrun₁, hvalues⟩ := hagain hexists c' hrecord x hx
          rw [← hrecord] at hexists hv hvalues
          obtain ⟨s₂, hrun₂, hkept⟩ := runOn_attempt hexists hx
          obtain rfl : s₁ = s₂ := congrArg Prod.snd (hrun₁.symm.trans hrun₂)
          exact hnew ((hvalues suffix v).mp ((hkept suffix v).mpr (.inl hv)))
    · rintro (⟨s', hok⟩ | ⟨hput, habsent⟩) e s'' hrun
      · rw [hok] at hrun
        cases hrun
      · obtain ⟨e', he'⟩ := Option.ne_none_iff_exists'.mp hput
        rw [run_first hexists he'] at hrun
        cases hrun
        refine ⟨rfl, fun _ c' hrecord x hx => ?_⟩
        rw [← hrecord] at hexists ⊢
        obtain ⟨s', hrun', hmem⟩ := runOn_attempt hexists hx
        refine ⟨s', hrun', fun suffix v => (hmem suffix v).trans (or_iff_right fun hv => ?_)⟩
        rw [hrecord] at hv
        exact habsent suffix v hv

/-- The second `put` fails: the overlay exists with its secret alone. -/
theorem not_create_all_or_nothing :
    ¬ ∀ (c : Creation) (puts : FaultPattern StorageError) (s : LmdbBrokerStore)
    (e : StorageError) (s' : LmdbBrokerStore), c.run puts s = (.error e, s') → c.Undone s s' := by
  intro h
  let c : Creation := overlay ⟨.replicate 32 7⟩ ⟨.replicate 32 1⟩ none 5
  let second : FaultPattern StorageError := fun i => if i = 1 then some .backendError else none
  have hnot : ¬ c.record.Exists ∅ := by simp [HasValue, MultiMap.values]
  have hexists : c.record.Exists (c.run second ∅).2 := exists_run hnot rfl
  cases hrun : c.run second ∅ with | mk res s' => ?_
  rw [hrun] at hexists
  cases res with
  | ok u =>
    have hsecond : second 1 = none := (run_eq_ok hnot).mp ⟨s', hrun⟩ 1 (Nat.le_refl 1)
    cases hsecond
  | error e =>
    obtain ⟨rfl, -⟩ := h c second ∅ e s' hrun
    exact hnot hexists

end Creation

end Lofire
