import Lofire.Lmdb.Runs

/-!
# Concurrent clients of the block store

`put`, `del`, `set_pin` and `has_been_synced` are one write transaction each. `get` reads the meta
of the block in a read transaction and stores the changed meta in a write transaction of its own, so
that the transactions of other clients can come in between. `reads` holds the metas that wait for
their write transaction.

The write transaction of `get` stores the pin that was read. Pins are kept in every run in which the
block is, at that moment, still pinned or not as it was read, and an unpinned block still has the
meta that was read (`Undisturbed`).
-/

namespace Lofire

open Lib

namespace LmdbRepoStore

/-- What the clients have committed that decides about a pin. -/
inductive PinEvent
  | setPin (id : BlockId) (add : Bool)
  | del (id : BlockId)

/-- The argument of the last `set_pin` on a block since it was deleted. The log starts with the
latest event. -/
def lastPin (id : BlockId) : List PinEvent → Bool
  | [] => false
  | .setPin id' add :: log => if id' = id then add else lastPin id log
  | .del id' :: log => if id' = id then false else lastPin id log

/-- The store, with the `get`s that are between their two transactions. -/
structure Clients where
  store : LmdbRepoStore
  reads : List (BlockId × BlockMeta)
  log : List PinEvent

/-- A transaction of some client, with its clock reading. -/
inductive Event
  | put (block : Block)
  | del (id : BlockId)
  | setPin (id : BlockId) (add : Bool)
  | hasBeenSynced (id : BlockId) (when? : Option Timestamp) (now : Timestamp)
  | getRead (id : BlockId)
  /-- The write transaction of the `i`-th waiting `get`. -/
  | getWrite (i : Nat) (now : Timestamp)

/-- The pin that is stored for a block. -/
def isPinned (s : LmdbRepoStore) (id : BlockId) : Bool := (s.metaStore id).elim false BlockMeta.pin

namespace Clients

def empty : Clients := ⟨LmdbRepoStore.empty, [], []⟩

section

variable (P : Primitives) (appendDup : Finset BlockId → BlockId → Bool)

def step (c : Clients) : Event → Clients
  | .put block => { c with store := stateAfter (put P block c.store) }
  | .del id =>
    match del P id c.store with
    | .ok (.ok _) s => { c with store := s, log := .del id :: c.log }
    | .ok (.error _) s => { c with store := s }
    | .error _ s => { c with store := s }
  | .setPin id add =>
    match setPin appendDup id add c.store with
    | .ok _ s => { c with store := s, log := .setPin id add :: c.log }
    | .error _ s => { c with store := s }
  | .hasBeenSynced id when? now =>
    { c with store := stateAfter (hasBeenSynced appendDup id when? now c.store) }
  | .getRead id =>
    match c.store.useToRecord id with
    | some m => { c with reads := c.reads ++ [(id, m)] }
    | none => c
  | .getWrite i now =>
    match c.reads[i]? with
    | some (id, m) =>
      { c with
        store := stateAfter
          (write (fun s => do return ((), ← recordUse appendDup now id m s)) c.store)
        reads := c.reads.eraseIdx i }
    | none => c

/-- The states that the clients reach by events which `Allowed` permits. -/
inductive Reachable (Allowed : Clients → Event → Prop) : Clients → Prop
  | empty : Reachable Allowed empty
  | step {c : Clients} (e : Event) (h : Reachable Allowed c) (hallowed : Allowed c e) :
      Reachable Allowed (c.step P appendDup e)

end

/-- The stored pins are those that were last set, and no pinned block is in the LRU list. -/
structure PinsKept (c : Clients) : Prop where
  pin : ∀ id, c.store.isPinned id = lastPin id c.log
  unlisted : ∀ id, c.store.isPinned id = true → ∀ t, (t, id) ∉ c.store.recentlyUsedStore

/-- The event is the write transaction of a `get` that fails on `remove_from_lru`. -/
def RemoveFails (c : Clients) (e : Event) : Prop :=
  ∃ i now id m, e = .getWrite i now ∧ c.reads[i]? = some (id, m) ∧ m.pin = false ∧
    removeFromLru id m.lastUsed c.store = .error .unwrap

/-- Where the write transaction of `get` comes, a block that was read as pinned is pinned and one
that was read as unpinned has the meta that was read. A `del` does not meet an unpinned synced block
with the last use 0. -/
def Undisturbed (c : Clients) : Event → Prop
  | .getWrite i _ => ∀ id m, c.reads[i]? = some (id, m) →
      (m.pin = true → c.store.isPinned id = true) ∧
        (m.pin = false → c.store.metaStore id = some m)
  | .del id => c.store.DelSeesLru id
  | _ => True

end Clients

/-! ## Pins after one transaction -/

section Pins

variable {P : Primitives} {appendDup : Finset BlockId → BlockId → Bool} {s s' : LmdbRepoStore}
  {id id' : BlockId} {m : BlockMeta}

theorem isPinned_iff : s.isPinned id = true ↔ ∃ m, s.metaStore id = some m ∧ m.pin = true := by
  unfold isPinned
  cases s.metaStore id with
  | none => simp
  | some m => simp

theorem isPinned_of_update {s s' : LmdbRepoStore}
    (h : s'.metaStore = Function.update s.metaStore id (some m)) (id' : BlockId) :
    s'.isPinned id' = if id = id' then m.pin else s.isPinned id' := by
  unfold isPinned
  rw [h]
  by_cases heq : id = id'
  · subst heq
    rw [Function.update_self, if_pos rfl]
    rfl
  · rw [Function.update_of_ne (Ne.symm heq), if_neg heq]

theorem isPinned_setPinTxn {add : Bool} (h : setPinTxn appendDup id add s = .ok s')
    (id' : BlockId) : s'.isPinned id' = if id = id' then add else s.isPinned id' := by
  obtain ⟨⟨hs, hpin⟩, hnone⟩ | ⟨-, rfl, rfl⟩ | ⟨m, -, -, hcase⟩ := setPinTxn_ok h
  · rw [hs]
    by_cases heq : id = id'
    · subst heq
      rw [if_pos rfl, isPinned]
      cases hm : s.metaStore id with
      | none => exact (hnone hm).symm
      | some m => exact hpin m hm
    · rw [if_neg heq]
  · exact isPinned_of_update (s := s) (m := ⟨true, 0, false⟩) rfl id'
  · have hset : ∀ s' : LmdbRepoStore, s'.metaStore =
      Function.update s.metaStore id (some { m with pin := add }) →
          s'.isPinned id' = if id = id' then add else s.isPinned id' :=
      fun s' hupdate => isPinned_of_update hupdate id'
    obtain ⟨-, rfl⟩ | ⟨-, -, -, rfl⟩ | ⟨-, -, rfl⟩ := hcase
    · exact hset _ rfl
    · exact hset _ rfl
    · exact hset _ rfl

theorem isPinned_hasBeenSyncedTxn {now : Timestamp}
    (h : hasBeenSyncedTxn appendDup id now s = .ok s') (id' : BlockId) :
    s'.isPinned id' = s.isPinned id' := by
  have hsame : ∀ m, s.isPinned id = m.pin →
      s'.metaStore = Function.update s.metaStore id (some m) →
      s'.isPinned id' = s.isPinned id' := by
    intro m hpin hupdate
    rw [isPinned_of_update hupdate]
    by_cases heq : id = id'
    · subst heq
      rw [if_pos rfl, hpin]
    · rw [if_neg heq]
  obtain ⟨rfl, -⟩ | ⟨hm, rfl⟩ | ⟨m, hm, -, hcase⟩ := hasBeenSyncedTxn_ok h
  · rfl
  · exact hsame _ (by rw [isPinned, hm]; rfl) rfl
  · have hpin : s.isPinned id = m.pin := by
      rw [isPinned, hm]
      rfl
    obtain ⟨-, rfl⟩ | ⟨-, rfl⟩ := hcase
    · exact hsame { m with synced := true, lastUsed := now } hpin rfl
    · exact hsame { m with synced := true, lastUsed := now } hpin rfl

theorem isPinned_delTxn {block : Block} (h : delTxn id block s = .ok s') (id' : BlockId) :
    s'.isPinned id' = if id = id' then false else s.isPinned id' := by
  unfold isPinned
  rw [delTxn_metaStore h]
  by_cases heq : id = id'
  · subst heq
    rw [Function.update_self, if_pos rfl]
    rfl
  · rw [Function.update_of_ne (Ne.symm heq), if_neg heq]

theorem isPinned_recordUse {now : Timestamp} (hpin : s.isPinned id = m.pin)
    (h : recordUse appendDup now id m s = .ok s') (id' : BlockId) :
    s'.isPinned id' = s.isPinned id' := by
  rw [isPinned_of_update (recordUse_metaStore h)]
  by_cases heq : id = id'
  · subst heq
    rw [if_pos rfl, hpin]
  · rw [if_neg heq]

end Pins

/-! ## Runs -/

namespace Clients

variable {P : Primitives} {appendDup : Finset BlockId → BlockId → Bool} {c : Clients}

/-- What holds in every state that undisturbed clients reach. -/
structure Inv (c : Clients) : Prop where
  lru : LruIndexed c.store
  pin : ∀ id, c.store.isPinned id = lastPin id c.log
  synced : ∀ r ∈ c.reads, r.2.synced = true

theorem Inv.pinsKept (h : Inv c) : PinsKept c where
  pin := h.pin
  unlisted := by
    intro id hpin t hmem
    obtain ⟨m, hm, hp⟩ := isPinned_iff.mp hpin
    obtain ⟨m', hm', -, hp', -⟩ := (h.lru t id).mp hmem
    rw [hm] at hm'
    cases hm'
    rw [hp] at hp'
    cases hp'

theorem Inv.not_removeFails (h : Inv c) {e : Event} (hmeets : c.Undisturbed e) :
    ¬ c.RemoveFails e := by
  rintro ⟨i, now, id, m, rfl, hread, hpin, hfails⟩
  have hm : c.store.metaStore id = some m := (hmeets id m hread).2 hpin
  have hsync : m.synced = true := h.synced _ (List.mem_of_getElem? hread)
  have hmem : (m.lastUsed, id) ∈ c.store.recentlyUsedStore :=
    (h.lru _ _).mpr ⟨m, hm, hsync, hpin, rfl⟩
  rw [removeFromLru, if_pos hmem] at hfails
  cases hfails

/-- A change of the store that leaves the LRU list correct and all the pins as they are. -/
theorem Inv.of_store (h : Inv c) {s : LmdbRepoStore} {reads : List (BlockId × BlockMeta)}
    (hlru : LruIndexed s) (hpin : ∀ id, s.isPinned id = c.store.isPinned id)
    (hreads : ∀ r ∈ reads, r.2.synced = true) : Inv { c with store := s, reads := reads } where
  lru := hlru
  pin id := (hpin id).trans (h.pin id)
  synced := hreads

theorem Inv.put (h : Inv c) (block : Block) : Inv (c.step P appendDup (.put block)) := by
  refine h.of_store (lruIndexed_congr (putTxn_metaStore block) (putTxn_recentlyUsedStore block)
    h.lru) (fun id => ?_) h.synced
  show isPinned (putTxn P block c.store) id = _
  rw [isPinned, putTxn_metaStore]
  rfl

theorem Inv.del (h : Inv c) {id : BlockId} (hsees : c.store.DelSeesLru id) :
    Inv (c.step P appendDup (.del id)) := by
  obtain ⟨res, s, block, hrun, -, -, htxn⟩ | ⟨res, hrun⟩ | ⟨p, hrun⟩ := del_cases P id c.store
  · rw [step, hrun]
    refine ⟨h.lru.delTxn hsees htxn, fun id' => ?_, h.synced⟩
    rw [isPinned_delTxn htxn, lastPin, h.pin]
  · rw [step, hrun]
    exact h
  · rw [step, hrun]
    exact h

theorem Inv.setPin (h : Inv c) (id : BlockId) (add : Bool) :
    Inv (c.step P appendDup (.setPin id add)) := by
  rw [step, LmdbRepoStore.setPin, write]
  cases htxn : setPinTxn appendDup id add c.store with
  | error p => exact h
  | ok s =>
    refine ⟨h.lru.setPinTxn htxn, fun id' => ?_, h.synced⟩
    show s.isPinned id' = if id = id' then add else lastPin id' c.log
    rw [← h.pin]
    exact isPinned_setPinTxn htxn id'

theorem Inv.hasBeenSynced (h : Inv c) (id : BlockId) (when? : Option Timestamp)
    (now : Timestamp) : Inv (c.step P appendDup (.hasBeenSynced id when? now)) := by
  rw [step, LmdbRepoStore.hasBeenSynced, write]
  cases htxn : hasBeenSyncedTxn appendDup id (when?.getD now) c.store with
  | error p => exact h
  | ok s => exact h.of_store (h.lru.hasBeenSyncedTxn htxn) (isPinned_hasBeenSyncedTxn htxn) h.synced

theorem Inv.getRead (h : Inv c) (id : BlockId) : Inv (c.step P appendDup (.getRead id)) := by
  rw [step]
  cases hread : c.store.useToRecord id with
  | none => exact h
  | some m =>
    refine h.of_store h.lru (fun _ => rfl) fun r hr => ?_
    obtain hr | hr := List.mem_append.mp hr
    · exact h.synced r hr
    · rw [List.mem_singleton.mp hr]
      exact (useToRecord_eq hread).2

theorem Inv.getWrite (h : Inv c) {i : Nat} {now : Timestamp}
    (hmeets : c.Undisturbed (.getWrite i now)) : Inv (c.step P appendDup (.getWrite i now)) := by
  rw [step]
  cases hread : c.reads[i]? with
  | none => exact h
  | some r =>
    obtain ⟨id, m⟩ := r
    obtain ⟨hpinned, hcur⟩ := hmeets id m hread
    have hsync : m.synced = true := h.synced _ (List.mem_of_getElem? hread)
    have hrest : ∀ r ∈ c.reads.eraseIdx i, r.2.synced = true :=
      fun r hr => h.synced r (List.mem_of_mem_eraseIdx hr)
    dsimp only
    rw [write]
    cases hrun : recordUse appendDup now id m c.store with
    | error p => exact h.of_store h.lru (fun _ => rfl) hrest
    | ok s =>
      have hpin : c.store.isPinned id = m.pin := by
        cases hp : m.pin with
        | true => exact hpinned hp
        | false =>
          rw [isPinned, hcur hp]
          exact hp
      exact h.of_store (h.lru.recordUse hsync (fun hp => isPinned_iff.mp (hpinned hp)) hcur hrun)
        (isPinned_recordUse hpin hrun) hrest

theorem Inv.step (h : Inv c) {e : Event} (hmeets : c.Undisturbed e) :
    Inv (c.step P appendDup e) := by
  cases e with
  | put block => exact h.put block
  | del id => exact h.del hmeets
  | setPin id add => exact h.setPin id add
  | hasBeenSynced id when? now => exact h.hasBeenSynced id when? now
  | getRead id => exact h.getRead id
  | getWrite i now => exact h.getWrite hmeets

theorem inv_empty : Inv empty where
  lru := lruIndexed_empty
  pin _ := rfl
  synced _ h := nomatch h

theorem Reachable.inv (h : Reachable P appendDup Undisturbed c) : Inv c := by
  induction h with
  | empty => exact inv_empty
  | step e _ hmeets ih => exact ih.step hmeets

/-- Undisturbed clients keep the pins, and no `get` of theirs fails on `remove_from_lru`. -/
theorem pinsKept_of_undisturbed (h : Reachable P appendDup Undisturbed c) :
    PinsKept c ∧ ∀ e, c.Undisturbed e → ¬ c.RemoveFails e :=
  ⟨h.inv.pinsKept, fun _ hmeets => h.inv.not_removeFails hmeets⟩

theorem Reachable.foldl {Allowed : Clients → Event → Prop} (h : Reachable P appendDup Allowed c)
    {events : List Event} (hallowed : ∀ c, ∀ e ∈ events, Allowed c e) :
    Reachable P appendDup Allowed (events.foldl (Clients.step P appendDup) c) := by
  induction events generalizing c with
  | nil => exact h
  | cons e events ih =>
    exact ih (.step e h (hallowed c e List.mem_cons_self))
      fun c e he => hallowed c e (List.mem_cons_of_mem _ he)

/-! ### A pinned block that is read -/

/-- The store in which a pinned block is synced. -/
def pinnedStore (P : Primitives) (block : Block) : LmdbRepoStore :=
  ((LmdbRepoStore.empty.putMain (block.id P) (block.toVec P)).putMeta (block.id P)
    ⟨true, 0, false⟩).putMeta (block.id P) ⟨true, 5, true⟩

/-- A block is put, pinned and synced, and a `get` reads its meta. -/
def readPinned (P : Primitives) (block : Block) : List Event :=
  [.put block, .setPin (block.id P) true, .hasBeenSynced (block.id P) (some 5) 5,
    .getRead (block.id P)]

theorem foldl_readPinned (P : Primitives) {block : Block} (hexp : block.expiry = none) :
    (readPinned P block).foldl (step P appendAfter) empty =
      ⟨pinnedStore P block, [(block.id P, ⟨true, 5, true⟩)], [.setPin (block.id P) true]⟩ := by
  let s₁ := LmdbRepoStore.empty.putMain (block.id P) (block.toVec P)
  let s₂ := s₁.putMeta (block.id P) ⟨true, 0, false⟩
  have hput : step P appendAfter empty (.put block) = ⟨s₁, [], []⟩ := by
    simp [step, LmdbRepoStore.put, write, stateAfter, putTxn, hexp, empty, s₁]
  have hpin : step P appendAfter ⟨s₁, [], []⟩ (.setPin (block.id P) true) =
      ⟨s₂, [], [.setPin (block.id P) true]⟩ := rfl
  have hsync : step P appendAfter ⟨s₂, [], [.setPin (block.id P) true]⟩
      (.hasBeenSynced (block.id P) (some 5) 5) =
        ⟨pinnedStore P block, [], [.setPin (block.id P) true]⟩ := by
    simp [step, LmdbRepoStore.hasBeenSynced, hasBeenSyncedTxn, write, stateAfter, s₂,
      pinnedStore, s₁, bind, Except.bind,
      pure, Except.pure]
  have hread : (pinnedStore P block).useToRecord (block.id P) = some ⟨true, 5, true⟩ := by
    simp [useToRecord, pinnedStore, putMeta, putMain]
  simp only [readPinned, List.foldl_cons, List.foldl_nil]
  rw [hput, hpin, hsync]
  simp [step, hread]

theorem undisturbed_readPinned (P : Primitives) (block : Block) (c : Clients) :
    ∀ e ∈ readPinned P block, c.Undisturbed e := by
  simp [readPinned, Undisturbed]

theorem pinsKept_of_undisturbed_sample :
    ∃ c : Clients, ∃ id, Reachable (reference fun _ _ => false) appendAfter Undisturbed c ∧
      c.store.metaStore id = some ⟨true, 7, true⟩ ∧ lastPin id c.log = true ∧
        ∀ t, (t, id) ∉ c.store.recentlyUsedStore := by
  let P := reference fun _ _ => false
  let block := Block.new P [] (.objectIdList []) none [1, 2, 3] none
  have hreads := foldl_readPinned P (show block.expiry = none from rfl)
  have hreach : Reachable P appendAfter Undisturbed ((readPinned P block).foldl
      (Clients.step P appendAfter) empty) :=
    Reachable.empty.foldl (undisturbed_readPinned P block)
  rw [hreads] at hreach
  have hmeets : Undisturbed ⟨pinnedStore P block, [(block.id P, ⟨true, 5, true⟩)],
      [.setPin (block.id P) true]⟩ (.getWrite 0 7) := by
    simp [Undisturbed, isPinned, pinnedStore]
  have hlast := hreach.step (.getWrite 0 7) hmeets
  have hmeta : (step P appendAfter ⟨pinnedStore P block, [(block.id P, ⟨true, 5, true⟩)],
      [.setPin (block.id P) true]⟩ (.getWrite 0 7)).store.metaStore (block.id P) =
        some ⟨true, 7, true⟩ := by
    simp [step, recordUse, write, stateAfter, bind, Except.bind, pure, Except.pure]
  obtain ⟨hkept, -⟩ := pinsKept_of_undisturbed hlast
  have hpinned := isPinned_iff.mpr ⟨_, hmeta, rfl⟩
  exact ⟨_, block.id P, hlast, hmeta, (hkept.pin _).symm.trans hpinned, hkept.unlisted _ hpinned⟩

/-- A block is unpinned between the two transactions of a `get`, and is pinned afterwards. -/
theorem get_undoes_unpin :
    ¬ ∀ c : Clients, Reachable (reference fun _ _ => false) appendAfter (fun _ _ => True) c →
      PinsKept c ∧ ∀ e, ¬ c.RemoveFails e := by
  intro hclaim
  let P := reference fun _ _ => false
  let block := Block.new P [] (.objectIdList []) none [1, 2, 3] none
  have hreads := foldl_readPinned P (show block.expiry = none from rfl)
  let reads := [(block.id P, (⟨true, 5, true⟩ : BlockMeta))]
  let log := [PinEvent.setPin (block.id P) false, .setPin (block.id P) true]
  let s := ((pinnedStore P block).putLru (block.id P) 5).putMeta (block.id P) ⟨false, 5, true⟩
  have hadd : addToLru appendAfter (block.id P) 5 (pinnedStore P block) =
      .ok ((pinnedStore P block).putLru (block.id P) 5) :=
    addToLru_ok.mpr ⟨rfl, rfl⟩
  have hunpin : step P appendAfter ⟨pinnedStore P block, reads, [.setPin (block.id P) true]⟩
      (.setPin (block.id P) false) = ⟨s, reads, log⟩ := by
    have hm : (pinnedStore P block).metaStore (block.id P) = some ⟨true, 5, true⟩ := putMeta_self _
    simp [step, LmdbRepoStore.setPin, setPinTxn, write, hm, hadd, s, log, bind, Except.bind, pure,
      Except.pure]
  have hwrite : step P appendAfter ⟨s, reads, log⟩ (.getWrite 0 7) =
      ⟨s.putMeta (block.id P) ⟨true, 7, true⟩, [], log⟩ := by
    simp [step, recordUse, write, stateAfter, reads, bind, Except.bind, pure, Except.pure]
  have hreach : Reachable P appendAfter (fun _ _ => True)
      ((readPinned P block ++ [Event.setPin (block.id P) false, .getWrite 0 7]).foldl
        (Clients.step P appendAfter) empty) :=
    Reachable.empty.foldl fun _ _ _ => trivial
  have hpin := (hclaim _ hreach).1.pin (block.id P)
  rw [List.foldl_append, hreads, List.foldl_cons, List.foldl_cons, List.foldl_nil, hunpin,
    hwrite, isPinned, putMeta_self] at hpin
  simp [lastPin, log] at hpin

end Clients

end LmdbRepoStore

end Lofire
