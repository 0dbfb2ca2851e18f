import Lofire.Lmdb.Runs

/-!
# The LRU list and the stored blocks

`remove_least_used` deletes the blocks of the LRU list and unwraps the result, so a listed block has
to be in the main store. `has_been_synced` and `set_pin` list a block without a look at the main
store, and `del` leaves the entry of a block whose last use is the time 0. Apart from these calls
(`KeepsStored`) every listed block is stored (`lru_stored`).
-/

namespace Lofire

open Lib

namespace LmdbRepoStore

/-- The block is in the main store. -/
def Stored (s : LmdbRepoStore) (id : BlockId) : Prop := s.mainStore id ≠ none

/-- The LRU list is correct, and the blocks that are to be listed are stored. -/
structure ListedStored (s : LmdbRepoStore) : Prop where
  lru : LruIndexed s
  stored : ∀ id t, Listed (s.metaStore id) t → s.Stored id

section Loops

variable (P : Primitives) (p : LmdbRepoStore → BlockId → Prop)

/-- `p` holds whenever the loop of `removeExpired` comes to a block. -/
def DelAllMeets : List BlockId → LmdbRepoStore → Prop
  | [], _ => True
  | id :: ids, s => p s id ∧ ∀ r s', del P id s = .ok (.ok r) s' → DelAllMeets ids s'

/-- `p` holds whenever the loop of `removeLeastUsed` comes to a block. -/
def DelUntilMeets (size : Nat) : List BlockId → Nat → LmdbRepoStore → Prop
  | [], _, _ => True
  | id :: ids, total, s => p s id ∧ ∀ r s', del P id s = .ok (.ok r) s' → ¬ size ≤ total + r.2 →
      DelUntilMeets size ids (total + r.2) s'

end Loops

section

variable (P : Primitives) (appendDup : Finset BlockId → BlockId → Bool)

/-- The call does not list a block that is not stored, and deletes no block whose entry it leaves. A
block is not listed either if LMDB rejects the entry. -/
def Op.KeepsStored (s : LmdbRepoStore) : Op → Prop
  | .put _ | .get _ _ => True
  | .del id => s.DelSeesLru id
  | .setPin id add => s.Stored id ∨ ∀ m, s.metaStore id = some m → m.synced = true → m.pin = true →
      add = true ∨ appendDup (s.recentlyUsedStore.values m.lastUsed) id = false
  | .hasBeenSynced id when? now => s.Stored id ∨
      (∃ m, s.metaStore id = some m ∧ (m.synced = true ∨ m.pin = true)) ∨
      appendDup (s.recentlyUsedStore.values (when?.getD now)) id = false
  | .removeExpired now =>
    DelAllMeets P DelSeesLru ((s.expiryStore.descendingFrom now).map Prod.snd) s
  | .removeLeastUsed size =>
    DelUntilMeets P DelSeesLru size (s.recentlyUsedStore.ascending.map Prod.snd) 0 s

/-- Every call of the sequence meets the condition in the state before it. -/
def AllKeepStored : List Op → LmdbRepoStore → Prop
  | [], _ => True
  | op :: ops, s => op.KeepsStored P appendDup s ∧ AllKeepStored ops (exec P appendDup op s)

/-- `remove_least_used` finds all the blocks that it comes to delete. -/
def RemovalFinds (s : LmdbRepoStore) (size : Nat) : Prop :=
  DelUntilMeets P (fun s id => ∀ e s', del P id s ≠ .ok (.error e) s') size
    (s.recentlyUsedStore.ascending.map Prod.snd) 0 s

end

variable {P : Primitives} {appendDup : Finset BlockId → BlockId → Bool} {s s' : LmdbRepoStore}
  {id : BlockId}

/-! ## One transaction -/

/-- A block is listed by `set_pin` only if LMDB accepts the entry. -/
theorem setPinTxn_accepted {m : BlockMeta} (hm : s.metaStore id = some m)
    (hsynced : m.synced = true)
    (hpin : m.pin = true) (hrun : setPinTxn appendDup id false s = .ok s') :
    appendDup (s.recentlyUsedStore.values m.lastUsed) id = true := by
  unfold setPinTxn at hrun
  simp only [hm, hpin, hsynced] at hrun
  obtain ⟨s₁, hadd, -⟩ := bind_eq_ok.mp hrun
  exact (addToLru_ok.mp hadd).1

/-- A block is listed by `has_been_synced` only if LMDB accepts the entry. -/
theorem hasBeenSyncedTxn_accepted {now : Timestamp}
    (hcond : ¬ ∃ m, s.metaStore id = some m ∧ (m.synced = true ∨ m.pin = true))
    (hrun : hasBeenSyncedTxn appendDup id now s = .ok s') :
    appendDup (s.recentlyUsedStore.values now) id = true := by
  unfold hasBeenSyncedTxn at hrun
  cases hm : s.metaStore id with
  | none =>
    simp only [hm] at hrun
    obtain ⟨s₁, hadd, -⟩ := bind_eq_ok.mp hrun
    exact (addToLru_ok.mp hadd).1
  | some m =>
    have hsynced : m.synced = false := Bool.not_eq_true _ ▸ fun h => hcond ⟨m, hm, .inl h⟩
    have hpin : m.pin = false := Bool.not_eq_true _ ▸ fun h => hcond ⟨m, hm, .inr h⟩
    simp only [hm, hsynced, hpin] at hrun
    obtain ⟨s₁, hadd, -⟩ := bind_eq_ok.mp hrun
    exact (addToLru_ok.mp hadd).1

namespace ListedStored

theorem mem (h : ListedStored s) {t : Timestamp} (hmem : (t, id) ∈ s.recentlyUsedStore) :
    s.Stored id := h.stored id t ((h.lru t id).mp hmem)

theorem empty : ListedStored empty where
  lru := lruIndexed_empty
  stored := fun _ _ ⟨_, hm, _⟩ => nomatch hm

/-- The meta of one block changes, and the block is stored if it is to be listed now. -/
theorem of_metaStore (h : ListedStored s) (hlru : LruIndexed s')
    (hmain : s'.mainStore = s.mainStore)
    {m : BlockMeta} (hmeta : s'.metaStore = Function.update s.metaStore id (some m))
    (hid : m.synced = true → m.pin = false → s.Stored id) : ListedStored s' where
  lru := hlru
  stored id' t hlisted := by
    unfold Stored
    rw [hmain]
    rw [hmeta] at hlisted
    by_cases heq : id' = id
    · subst heq
      rw [Function.update_self] at hlisted
      obtain ⟨_, hm, hsynced, hpin, -⟩ := hlisted
      cases hm
      exact hid hsynced hpin
    · rw [Function.update_of_ne heq] at hlisted
      exact h.stored id' t hlisted

theorem putTxn (h : ListedStored s) (block : Block) : ListedStored (putTxn P block s) where
  lru := lruIndexed_congr (putTxn_metaStore block) (putTxn_recentlyUsedStore block) h.lru
  stored id t hlisted := by
    rw [putTxn_metaStore] at hlisted
    unfold Stored
    rw [putTxn_mainStore]
    by_cases heq : id = block.id P
    · rw [heq, Function.update_self]
      exact Option.some_ne_none _
    · rw [Function.update_of_ne heq]
      exact h.stored id t hlisted

theorem recordUse (h : ListedStored s) {now : Timestamp} {m : BlockMeta}
    (hread : s.useToRecord id = some m) (hrun : recordUse appendDup now id m s = .ok s') :
    ListedStored s' := by
  obtain ⟨hm, hsynced⟩ := useToRecord_eq hread
  refine h.of_metaStore (h.lru.recordUse hsynced (fun hp => ⟨_, hm, hp⟩) (fun _ => hm) hrun)
    (recordUse_frame hrun).1 (recordUse_metaStore hrun) fun _ _ hnone => ?_
  unfold useToRecord at hread
  rw [hnone] at hread
  cases hread

theorem delTxn (h : ListedStored s) {block : Block} (hsees : s.DelSeesLru id)
    (hrun : delTxn id block s = .ok s') : ListedStored s' where
  lru := h.lru.delTxn hsees hrun
  stored id' t hlisted := by
    unfold Stored
    rw [delTxn_metaStore hrun] at hlisted
    rw [delTxn_mainStore hrun]
    by_cases heq : id' = id
    · subst heq
      rw [Function.update_self] at hlisted
      obtain ⟨_, hm, -⟩ := hlisted
      cases hm
    · rw [Function.update_of_ne heq] at hlisted ⊢
      exact h.stored id' t hlisted

theorem setPinTxn (h : ListedStored s) {add : Bool} (hrun : setPinTxn appendDup id add s = .ok s')
    (hcond : (Op.setPin id add).KeepsStored P appendDup s) : ListedStored s' := by
  have hlru := h.lru.setPinTxn hrun
  obtain ⟨⟨rfl, -⟩, -⟩ | ⟨-, -, rfl⟩ | ⟨m, hm, hpin, hcase⟩ := setPinTxn_ok hrun
  · exact h
  · exact h.of_metaStore hlru rfl rfl nofun
  · obtain ⟨hsynced, rfl⟩ | ⟨-, rfl, -, rfl⟩ | ⟨hsynced, rfl, rfl⟩ := hcase
    · refine h.of_metaStore hlru rfl rfl fun hs => ?_
      rw [hsynced] at hs
      cases hs
    · exact h.of_metaStore hlru rfl rfl nofun
    · refine h.of_metaStore hlru rfl rfl fun _ _ => ?_
      obtain hstored | hcond := hcond
      · exact hstored
      · obtain hadd | hreject := hcond m hm hsynced hpin
        · cases hadd
        · rw [setPinTxn_accepted hm hsynced hpin hrun] at hreject
          cases hreject

theorem hasBeenSyncedTxn (h : ListedStored s) {when? : Option Timestamp} {now : Timestamp}
    (hrun : hasBeenSyncedTxn appendDup id (when?.getD now) s = .ok s')
    (hcond : (Op.hasBeenSynced id when? now).KeepsStored P appendDup s) : ListedStored s' := by
  have hlru := h.lru.hasBeenSyncedTxn hrun
  have hstored : (¬ ∃ m, s.metaStore id = some m ∧ (m.synced = true ∨ m.pin = true)) →
      s.Stored id := by
    intro hnot
    obtain hstored | hknown | hreject := hcond
    · exact hstored
    · exact absurd hknown hnot
    · rw [hasBeenSyncedTxn_accepted hnot hrun] at hreject
      cases hreject
  obtain ⟨rfl, -⟩ | ⟨hm, rfl⟩ | ⟨m, hm, hsynced, hcase⟩ := hasBeenSyncedTxn_ok hrun
  · exact h
  · refine h.of_metaStore hlru rfl rfl fun _ _ => hstored ?_
    rintro ⟨m, hm', -⟩
    rw [hm] at hm'
    cases hm'
  · obtain ⟨hpin, rfl⟩ | ⟨hpin, rfl⟩ := hcase
    · refine h.of_metaStore hlru rfl rfl fun _ hp => ?_
      rw [hpin] at hp
      cases hp
    · refine h.of_metaStore hlru rfl rfl fun _ _ => hstored ?_
      rintro ⟨m', hm', hknown⟩
      rw [hm] at hm'
      cases hm'
      simp [hsynced, hpin] at hknown

/-! ## One call -/

theorem del (h : ListedStored s) (hsees : s.DelSeesLru id) :
    ListedStored (stateAfter (del P id s)) := by
  obtain ⟨slice, s', block, hrun, -, -, htxn⟩ | ⟨e, hrun⟩ | ⟨p, hrun⟩ := del_cases P id s
  · rw [hrun]
    exact h.delTxn hsees htxn
  · rw [hrun]
    exact h
  · rw [hrun]
    exact h

theorem delAll {ids : List BlockId} (h : ListedStored s) (hsees : DelAllMeets P DelSeesLru ids s) :
    ListedStored (stateAfter (delAll P ids s)) := by
  induction ids generalizing s with
  | nil => exact h
  | cons id ids ih =>
    refine stateAfter_bind (h.del hsees.1) fun res s' hrun hdel => ?_
    cases res with
    | error e => exact hdel
    | ok r => exact ih hdel (hsees.2 r s' hrun)

theorem delUntil {size : Nat} {ids : List BlockId} {total : Nat} (h : ListedStored s)
    (hsees : DelUntilMeets P DelSeesLru size ids total s) :
    ListedStored (stateAfter (delUntil P size ids total s)) := by
  induction ids generalizing s total with
  | nil => exact h
  | cons id ids ih =>
    refine stateAfter_bind (h.del hsees.1) fun res s' hrun hdel => ?_
    cases res with
    | error e => exact hdel
    | ok r =>
      dsimp only
      split
      · exact hdel
      · rename_i hmore
        exact ih hdel (hsees.2 r s' hrun hmore)

theorem get (h : ListedStored s) (now : Timestamp) (id : BlockId) :
    ListedStored (stateAfter (get P appendDup now id s)) := by
  unfold LmdbRepoStore.get
  cases hmain : s.mainStore id with
  | none => exact h
  | some blockSer =>
    cases hread : s.useToRecord id with
    | none =>
      dsimp only
      cases checkBlock P id blockSer <;> exact h
    | some m =>
      dsimp only
      cases hrun : LmdbRepoStore.recordUse appendDup now id m s with
      | error p => exact h
      | ok s' =>
        dsimp only
        cases checkBlock P id blockSer <;> exact h.recordUse hread hrun

theorem exec (h : ListedStored s) {op : Op} (hcond : op.KeepsStored P appendDup s) :
    ListedStored (exec P appendDup op s) := by
  cases op with
  | put block => exact h.putTxn block
  | get now id => exact h.get now id
  | del id => exact h.del hcond
  | setPin id add =>
    obtain hs | ⟨a, s', htxn, hs⟩ := stateAfter_write _ s
    · rw [LmdbRepoStore.exec, setPin, hs]
      exact h
    · rw [LmdbRepoStore.exec, setPin, hs]
      obtain ⟨s₁, h₁, htxn⟩ := bind_eq_ok.mp htxn
      cases htxn
      exact h.setPinTxn h₁ hcond
  | hasBeenSynced id when? now =>
    obtain hs | ⟨a, s', htxn, hs⟩ := stateAfter_write _ s
    · rw [LmdbRepoStore.exec, hasBeenSynced, hs]
      exact h
    · rw [LmdbRepoStore.exec, hasBeenSynced, hs]
      obtain ⟨s₁, h₁, htxn⟩ := bind_eq_ok.mp htxn
      cases htxn
      exact h.hasBeenSyncedTxn h₁ hcond
  | removeExpired now => exact h.delAll hcond
  | removeLeastUsed size => exact h.delUntil hcond

end ListedStored

/-! ## Garbage collection -/

theorem del_found (h : s.Stored id) (e : StorageError) (s' : LmdbRepoStore) :
    del P id s ≠ .ok (.error e) s' := by
  unfold del write
  dsimp only
  cases hmain : s.mainStore id with
  | none => exact absurd hmain h
  | some slice =>
    dsimp only
    cases Block.fromSlice P slice with
    | none => nofun
    | some block =>
      dsimp only
      cases delTxn id block s <;> nofun

/-- A deletion keeps the other blocks. -/
theorem stored_del {r : Block × Nat} (hrun : del P id s = .ok (.ok r) s') {id' : BlockId}
    (hne : id' ≠ id) (h : s.Stored id') : s'.Stored id' := by
  obtain ⟨slice, s₁, block, hrun₁, -, -, htxn⟩ | ⟨e, hrun₁⟩ | ⟨p, hrun₁⟩ := del_cases P id s
  · rw [hrun₁] at hrun
    cases hrun
    unfold Stored
    rw [delTxn_mainStore htxn, Function.update_of_ne hne]
    exact h
  · rw [hrun₁] at hrun
    cases hrun
  · rw [hrun₁] at hrun
    cases hrun

/-- The loop of `remove_least_used` over different blocks that are stored. -/
theorem delUntilMeets_of_stored {size : Nat} {ids : List BlockId} (hnodup : ids.Nodup) (total : Nat)
    (h : ∀ id ∈ ids, s.Stored id) :
    DelUntilMeets P (fun s id => ∀ e s', del P id s ≠ .ok (.error e) s') size ids total s := by
  induction ids generalizing s total with
  | nil => trivial
  | cons id ids ih =>
    obtain ⟨hid, hnodup⟩ := List.nodup_cons.mp hnodup
    refine ⟨del_found (h id List.mem_cons_self), fun r s' hrun _ => ih hnodup _ fun id' hid' => ?_⟩
    have hne : id' ≠ id := fun heq => hid (heq ▸ hid')
    exact stored_del hrun hne (h id' (List.mem_cons_of_mem _ hid'))

theorem ListedStored.removalFinds (h : ListedStored s) (size : Nat) : s.RemovalFinds P size := by
  have hnodup : (s.recentlyUsedStore.ascending.map Prod.snd).Nodup := by
    refine List.Nodup.map_on ?_ s.recentlyUsedStore.nodup_ascending
    rintro ⟨t, id⟩ hp ⟨t', id'⟩ hp' rfl
    obtain ⟨m, hm, -, -, rfl⟩ := (h.lru t id).mp (MultiMap.mem_ascending.mp hp)
    obtain ⟨m', hm', -, -, rfl⟩ := (h.lru t' id).mp (MultiMap.mem_ascending.mp hp')
    rw [hm] at hm'
    cases hm'
    rfl
  refine delUntilMeets_of_stored hnodup 0 fun id hid => ?_
  obtain ⟨⟨t, _⟩, hmem, rfl⟩ := List.mem_map.mp hid
  exact h.mem (MultiMap.mem_ascending.mp hmem)

/-! ## Runs -/

theorem ListedStored.run {ops : List Op} (h : ListedStored s)
    (hops : AllKeepStored P appendDup ops s) :
    ListedStored (ops.foldl (fun s op => LmdbRepoStore.exec P appendDup op s) s) := by
  induction ops generalizing s with
  | nil => exact h
  | cons op ops ih => exact ih (h.exec hops.1) hops.2

/-- If every call meets the condition, every listed block is stored, and `remove_least_used` finds
the blocks it deletes. -/
theorem lru_stored {ops : List Op} (hops : AllKeepStored P appendDup ops empty) :
    (∀ t id, (t, id) ∈ (run P appendDup ops).recentlyUsedStore →
      (run P appendDup ops).mainStore id ≠ none) ∧
    ∀ size, (run P appendDup ops).RemovalFinds P size := by
  have h : ListedStored (run P appendDup ops) := ListedStored.empty.run hops
  exact ⟨fun t id hmem => h.mem hmem, h.removalFinds⟩

theorem lru_stored_sample :
    ∃ b : Block, ∀ size, (run (reference fun _ _ => false) appendAfter
      [.put b, .hasBeenSynced (b.id (reference fun _ _ => false)) (some 9) 1]).RemovalFinds
        (reference fun _ _ => false) size := by
  let P := reference fun _ _ => false
  let b := Block.new P [] (.objectIdList []) none [1, 2, 3] none
  have hstored : (exec P appendAfter (.put b) empty).Stored (b.id P) := by
    show (putTxn P b empty).mainStore (b.id P) ≠ none
    rw [putTxn_mainStore, Function.update_self]
    exact Option.some_ne_none _
  have hops : AllKeepStored P appendAfter [.put b, .hasBeenSynced (b.id P) (some 9) 1] empty :=
    ⟨trivial, .inl hstored, trivial⟩
  exact ⟨b, (lru_stored hops).2⟩

/-- A block that is not stored is listed when it is said to have been synced. -/
theorem not_lru_stored :
    ¬ ∀ (P : Primitives) (ops : List Op), (∀ op ∈ ops, ∀ size, op ≠ .removeLeastUsed size) →
      ∀ t id, (t, id) ∈ (run P appendAfter ops).recentlyUsedStore →
        (run P appendAfter ops).mainStore id ≠ none := by
  intro h
  let id : BlockId := ⟨.replicate 32 1⟩
  refine h (reference fun _ _ => false) [.hasBeenSynced id (some 5) 9] ?_ 5 id ?_ rfl
  · simp
  · exact Finset.mem_insert_self _ _

end LmdbRepoStore

end Lofire
