import Lofire.Lmdb.Deletion

/-!
# What holds after any sequence of calls

`has_been_synced` can be told any time, and `del` leaves the LRU entry of a block whose last use is
the time 0. Whatever the times are, the LRU list holds every block that is to be listed, and apart
from the time 0 only those (`LruFits`).
-/

namespace Lofire

open Lib

namespace LmdbRepoStore

variable {P : Primitives} {appendDup : Finset BlockId → BlockId → Bool} {B : Set Block}
  {T : Timestamp → Prop} {s s' : LmdbRepoStore} {id : BlockId}

/-- The LRU entries of one block, given by their times, fit its meta. -/
structure EntriesFit (m? : Option BlockMeta) (times : Timestamp → Prop) : Prop where
  listed : ∀ t, Listed m? t → times t
  only : ∀ t, t ≠ 0 → times t → Listed m? t
  unsynced : ∀ m, m? = some m → m.synced = false → m.lastUsed = 0

/-- The LRU entries of every block fit its meta. -/
def LruFits (s : LmdbRepoStore) : Prop :=
  ∀ id, EntriesFit (s.metaStore id) fun t => (t, id) ∈ s.recentlyUsedStore

/-! ## One block -/

namespace EntriesFit

variable {m? : Option BlockMeta} {m : BlockMeta} {times times' : Timestamp → Prop}

theorem congr (h : EntriesFit m? times) (heq : ∀ t, times' t ↔ times t) : EntriesFit m? times' where
  listed t ht := (heq t).mpr (h.listed t ht)
  only t hne ht := h.only t hne ((heq t).mp ht)
  unsynced := h.unsynced

/-- A block that is not to be listed has no entries other than one under the time 0. -/
theorem of_not_listed (hnot : ∀ t, ¬ Listed m? t) (htimes : ∀ t, times t → t = 0)
    (hunsynced : ∀ m, m? = some m → m.synced = false → m.lastUsed = 0) : EntriesFit m? times where
  listed t ht := absurd ht (hnot t)
  only t hne ht := absurd (htimes t ht) hne
  unsynced := hunsynced

/-- A block that is to be listed has the entry of its last use, and maybe one under the time 0. -/
theorem of_listed (hs : m.synced = true) (hp : m.pin = false) (hlast : times m.lastUsed)
    (htimes : ∀ t, times t → t = m.lastUsed ∨ t = 0) : EntriesFit (some m) times where
  listed t ht := by
    rw [(listed_iff hs hp).mp ht]
    exact hlast
  only t hne ht := (listed_iff hs hp).mpr ((htimes t ht).resolve_right hne)
  unsynced m' hm' hs' := by
    cases hm'
    rw [hs] at hs'
    cases hs'

theorem eq_zero (h : EntriesFit m? times) (hnot : ∀ t, ¬ Listed m? t)
    {t : Timestamp} (ht : times t) :
    t = 0 := by
  by_contra hne
  exact hnot t (h.only t hne ht)

theorem eq_or_zero (h : EntriesFit (some m) times) {t : Timestamp} (ht : times t) :
    t = m.lastUsed ∨ t = 0 := by
  by_cases hne : t = 0
  · exact .inr hne
  · obtain ⟨m', hm', -, -, hlast⟩ := h.only t hne ht
    cases hm'
    exact .inl hlast.symm

end EntriesFit

/-! ## Transactions -/

theorem LruFits.of_frame (h : LruFits s) (id : BlockId)
    (hmeta : ∀ id', id' ≠ id → s'.metaStore id' = s.metaStore id')
    (hlru : ∀ t id', id' ≠ id → ((t, id') ∈ s'.recentlyUsedStore ↔ (t, id') ∈ s.recentlyUsedStore))
    (hid : EntriesFit (s'.metaStore id) fun t => (t, id) ∈ s'.recentlyUsedStore) : LruFits s' := by
  intro id'
  by_cases heq : id' = id
  · subst heq
    exact hid
  · rw [hmeta id' heq]
    exact (h id').congr fun t => hlru t id' heq

/-- The meta of a block changes, and its entries stay. -/
theorem LruFits.putMeta (h : LruFits s) {m : BlockMeta}
    (hid : EntriesFit (some m) fun t => (t, id) ∈ s.recentlyUsedStore) :
    LruFits (s.putMeta id m) := by
  refine h.of_frame id (fun id' hne => putMeta_of_ne hne m) (fun _ _ _ => Iff.rfl) ?_
  rw [putMeta_self]
  exact hid

/-- A block is filed under the last use of its new meta. -/
theorem LruFits.putLru_putMeta (h : LruFits s) {m : BlockMeta} (hs : m.synced = true)
    (hp : m.pin = false) (htimes : ∀ t, (t, id) ∈ s.recentlyUsedStore → t = 0) :
    LruFits ((s.putLru id m.lastUsed).putMeta id m) := by
  refine h.of_frame id (fun id' hne => putMeta_of_ne hne m) (fun t id' hne => ?_) ?_
  · show (t, id') ∈ (s.putLru id m.lastUsed).recentlyUsedStore ↔ _
    rw [mem_putLru]
    simp [hne]
  · rw [putMeta_self]
    refine .of_listed hs hp ?_ fun t ht => ?_
    · exact mem_putLru.mpr (.inl ⟨rfl, rfl⟩)
    · obtain ⟨ht, -⟩ | ht := mem_putLru.mp ht
      · exact .inl ht
      · exact .inr (htimes t ht)

/-- The entry of the last use is removed. -/
theorem LruFits.deleteLru {m : BlockMeta} (h : LruFits s)
    (hm : s.metaStore id = some m) {t : Timestamp}
    (ht : (t, id) ∈ (s.deleteLru id m.lastUsed).recentlyUsedStore) : t = 0 := by
  obtain ⟨hne, hmem⟩ := mem_deleteLru.mp ht
  have hfit := h id
  rw [hm] at hfit
  obtain heq | heq := hfit.eq_or_zero hmem
  · exact absurd ⟨heq, rfl⟩ hne
  · exact heq

theorem LruFits.recordUse (h : LruFits s) {now : Timestamp} {m : BlockMeta}
    (hm : s.metaStore id = some m) (hs : m.synced = true)
    (hrun : recordUse appendDup now id m s = .ok s') : LruFits s' := by
  have hfit := h id
  rw [hm] at hfit
  obtain ⟨hp, rfl⟩ | ⟨hp, -, rfl⟩ := recordUse_ok hrun
  · have hnot := not_listed_of_pin (m := { m with lastUsed := now }) hp
    refine h.putMeta (.of_not_listed hnot (fun t => hfit.eq_zero (not_listed_of_pin hp)) ?_)
    intro m' hm' hs'
    cases hm'
    rw [hs] at hs'
    cases hs'
  · refine h.of_frame id (fun id' hne => putMeta_of_ne hne _) (fun t id' hne => ?_) ?_
    · show (t, id') ∈ ((s.deleteLru id m.lastUsed).putLru id now).recentlyUsedStore ↔ _
      rw [mem_putLru, mem_deleteLru]
      simp [hne]
    · rw [putMeta_self]
      refine .of_listed hs hp (mem_putLru.mpr (.inl ⟨rfl, rfl⟩)) fun t ht => ?_
      obtain ⟨ht, -⟩ | ht := mem_putLru.mp ht
      · exact .inl ht
      · exact .inr (h.deleteLru hm ht)

theorem LruFits.setPinTxn (h : LruFits s) {add : Bool}
    (hrun : setPinTxn appendDup id add s = .ok s') : LruFits s' := by
  obtain ⟨⟨rfl, -⟩, -⟩ | ⟨hm, -, rfl⟩ | ⟨m, hm, hp, hcase⟩ := setPinTxn_ok hrun
  · exact h
  · have hnot : ∀ t, ¬ Listed (s.metaStore id) t := by
      rw [hm]
      rintro t ⟨_, hnone, -⟩
      cases hnone
    refine h.putMeta (.of_not_listed (not_listed_of_pin rfl) (fun t => (h id).eq_zero hnot) ?_)
    intro m' hm' _
    cases hm'
    rfl
  · have hfit := h id
    rw [hm] at hfit
    obtain ⟨hs, rfl⟩ | ⟨hs, rfl, -, rfl⟩ | ⟨hs, rfl, rfl⟩ := hcase
    · have hnot := not_listed_of_unsynced (m := { m with pin := add }) hs
      refine h.putMeta (.of_not_listed hnot (fun t => hfit.eq_zero (not_listed_of_unsynced hs)) ?_)
      intro m' hm' _
      cases hm'
      exact hfit.unsynced m rfl hs
    · refine h.of_frame id (fun id' hne => putMeta_of_ne hne _) (fun t id' hne => ?_) ?_
      · show (t, id') ∈ (s.deleteLru id m.lastUsed).recentlyUsedStore ↔ _
        rw [mem_deleteLru]
        simp [hne]
      · rw [putMeta_self]
        refine .of_not_listed (not_listed_of_pin rfl) (fun t => h.deleteLru hm) ?_
        intro m' hm' hs'
        cases hm'
        rw [hs] at hs'
        cases hs'
    · refine h.putLru_putMeta (m := { m with pin := false }) hs rfl fun t => ?_
      exact hfit.eq_zero (not_listed_of_pin hp)

theorem LruFits.hasBeenSyncedTxn (h : LruFits s) {now : Timestamp}
    (hrun : hasBeenSyncedTxn appendDup id now s = .ok s') : LruFits s' := by
  obtain ⟨rfl, -⟩ | ⟨hm, rfl⟩ | ⟨m, hm, hs, hcase⟩ := hasBeenSyncedTxn_ok hrun
  · exact h
  · refine h.putLru_putMeta (m := ⟨false, now, true⟩) rfl rfl fun t => (h id).eq_zero ?_
    rw [hm]
    rintro t ⟨_, hnone, -⟩
    cases hnone
  · have hfit := h id
    rw [hm] at hfit
    have hzero : ∀ t, (t, id) ∈ s.recentlyUsedStore → t = 0 :=
      fun t => hfit.eq_zero (not_listed_of_unsynced hs)
    obtain ⟨hp, rfl⟩ | ⟨hp, rfl⟩ := hcase
    · have hnot := not_listed_of_pin (m := { m with synced := true, lastUsed := now }) hp
      refine h.putMeta (.of_not_listed hnot hzero ?_)
      intro m' hm' hs'
      cases hm'
      cases hs'
    · exact h.putLru_putMeta (m := { m with synced := true, lastUsed := now }) rfl hp hzero

theorem LruFits.delTxn (h : LruFits s) {block : Block} (hrun : delTxn id block s = .ok s') :
    LruFits s' := by
  refine h.of_frame id (fun id' hne => ?_) (fun t id' hne => ?_) ?_
  · rw [delTxn_metaStore hrun, Function.update_of_ne hne]
  · rw [delTxn_recentlyUsedStore hrun, mem_dropMeta_lru]
    simp [hne]
  · rw [delTxn_metaStore hrun, Function.update_self]
    refine .of_not_listed ?_ (fun t ht => ?_) (by simp)
    · rintro t ⟨_, hnone, -⟩
      cases hnone
    · rw [delTxn_recentlyUsedStore hrun, mem_dropMeta_lru] at ht
      by_contra hne
      obtain ⟨m, hm, -, -, hlast⟩ := (h id).only t hne ht.1
      exact ht.2 ⟨rfl, hne, m, hm, hlast⟩

theorem LruFits.empty : LruFits empty :=
  fun _ => .of_not_listed (fun _ ⟨_, hm, _⟩ => nomatch hm)
    (fun _ ht => absurd ht (Finset.notMem_empty _)) nofun

theorem LruFits.commit (h : LruFits s) (hcommit : Commit P appendDup B T s s') : LruFits s' := by
  cases hcommit with
  | recordUse ht hread hrun =>
    obtain ⟨hm, hs⟩ := useToRecord_eq hread
    exact h.recordUse hm hs hrun
  | @put block hb =>
    intro id
    rw [putTxn_metaStore, putTxn_recentlyUsedStore]
    exact h id
  | del hmain hblock hrun => exact h.delTxn hrun
  | setPin hrun => exact h.setPinTxn hrun
  | hasBeenSynced ht hrun => exact h.hasBeenSyncedTxn hrun

/-! ## Runs -/

/-- What holds after every sequence of calls that puts blocks of `B`. -/
structure Reached (P : Primitives) (B : Set Block) (s : LmdbRepoStore) : Prop where
  lru : LruFits s
  expiry : ExpiryIndexed P B s

theorem Reached.empty : Reached P B empty := ⟨.empty, consistent_empty.expiry⟩

theorem Reached.commit (hP : P.SerdeLaws) (hB : IdsDistinct P B)
    (hcommit : Commit P appendDup B T s s') (h : Reached P B s) : Reached P B s' :=
  ⟨h.lru.commit hcommit, h.expiry.commit hP hB hcommit⟩

/-- The LRU entries fit after every sequence of calls, whatever the blocks and times are. -/
theorem lruFits_run (ops : List Op) : LruFits (run P appendDup ops) :=
  run_invariant (B := Set.univ) (T := fun _ => True) .empty (fun _ _ hcommit h => h.commit hcommit)
    fun op _ => by cases op <;> trivial

theorem reached_run (hP : P.SerdeLaws) (hB : IdsDistinct P B) {ops : List Op}
    (hops : ∀ op ∈ ops, op.Allowed B T) : Reached P B (run P appendDup ops) :=
  run_invariant .empty (fun _ _ => Reached.commit hP hB) hops

theorem Reached.coherent (hP : P.SerdeLaws) (h : Reached P B s) : Coherent P s where
  decodes id ser hser := by
    obtain ⟨b, -, -, rfl⟩ := h.expiry.main id ser hser
    exact ⟨_, Block.fromSlice_toVec hP b⟩
  expiry := h.expiry.expiry
  lru t id := (h.lru id).only t

/-- In a reached state, only a pinned synced block has a last use without an LRU entry. -/
theorem Reached.entryFound_iff (h : Reached P B s) (id : BlockId) :
    s.EntryFound id ↔
      ∀ m, s.metaStore id = some m → m.synced = true → m.pin = true → m.lastUsed = 0 := by
  have hfit := h.lru id
  constructor
  · intro hfound m hm _ hp
    rw [hm] at hfit
    by_contra hlast
    exact not_listed_of_pin hp _ (hfit.only _ hlast (hfound m hm hlast))
  · intro hpinned m hm hlast
    have hs : m.synced = true := by
      by_contra hs
      exact hlast (hfit.unsynced m hm (Bool.not_eq_true _ ▸ hs))
    have hp : m.pin = false := by
      by_contra hp
      exact hlast (hpinned m hm hs (Bool.not_eq_false _ ▸ hp))
    exact hfit.listed _ ⟨m, hm, hs, hp, rfl⟩

end LmdbRepoStore

end Lofire
