import Lofire.Lmdb.Transactions
import Mathlib.Logic.Relation

/-!
# The index tables agree with the primary tables

`recently_used_store` lists exactly the synced blocks that are not pinned, each under its last use
(`LruIndexed`), and `expiry_store` lists exactly the stored blocks with an expiry
(`ExpiryIndexed`). Every transaction keeps both.
-/

namespace Lofire

open Lib

namespace LmdbRepoStore

variable {P : Primitives} {appendDup : Finset BlockId → BlockId → Bool}

/-! ## The LRU list -/

/-- The meta of a block that is to be listed with the time `t`. -/
def Listed (m? : Option BlockMeta) (t : Timestamp) : Prop :=
  ∃ m, m? = some m ∧ m.synced = true ∧ m.pin = false ∧ m.lastUsed = t

/-- The LRU list holds exactly the synced blocks that are not pinned. -/
def LruIndexed (s : LmdbRepoStore) : Prop :=
  ∀ t id, (t, id) ∈ s.recentlyUsedStore ↔ Listed (s.metaStore id) t

section Lru

variable {s s' : LmdbRepoStore} {id : BlockId} {m : BlockMeta}

theorem not_listed_of_pin (h : m.pin = true) (t : Timestamp) : ¬ Listed (some m) t := by
  rintro ⟨m', hm', -, hpin, -⟩
  cases hm'
  rw [h] at hpin
  cases hpin

theorem not_listed_of_unsynced (h : m.synced = false) (t : Timestamp) : ¬ Listed (some m) t := by
  rintro ⟨m', hm', hsync, -, -⟩
  cases hm'
  rw [h] at hsync
  cases hsync

theorem listed_iff (hs : m.synced = true) (hp : m.pin = false) {t : Timestamp} :
    Listed (some m) t ↔ t = m.lastUsed := by
  constructor
  · rintro ⟨m', hm', -, -, ht⟩
    cases hm'
    exact ht.symm
  · rintro rfl
    exact ⟨m, rfl, hs, hp, rfl⟩

/-- The list stays correct if only the entries of `id` change and they are correct. -/
theorem LruIndexed.of_frame (h : LruIndexed s) (id : BlockId)
    (hmeta : ∀ id', id' ≠ id → s'.metaStore id' = s.metaStore id')
    (hlru : ∀ t id', id' ≠ id → ((t, id') ∈ s'.recentlyUsedStore ↔ (t, id') ∈ s.recentlyUsedStore))
    (hid : ∀ t, (t, id) ∈ s'.recentlyUsedStore ↔ Listed (s'.metaStore id) t) : LruIndexed s' := by
  intro t id'
  by_cases heq : id' = id
  · subst heq
    exact hid t
  · rw [hlru t id' heq, hmeta id' heq]
    exact h t id'

theorem mem_putLru {t t' : Timestamp} {id' : BlockId} :
    (t', id') ∈ (s.putLru id t).recentlyUsedStore ↔
      (t' = t ∧ id' = id) ∨ (t', id') ∈ s.recentlyUsedStore := by
  simp [putLru]

theorem mem_deleteLru {t t' : Timestamp} {id' : BlockId} :
    (t', id') ∈ (s.deleteLru id t).recentlyUsedStore ↔
      ¬ (t' = t ∧ id' = id) ∧ (t', id') ∈ s.recentlyUsedStore := by
  simp [deleteLru, Finset.mem_erase]

@[simp] theorem putMeta_self (m : BlockMeta) : (s.putMeta id m).metaStore id = some m := by
  simp [putMeta]

theorem putMeta_of_ne {id' : BlockId} (h : id' ≠ id) (m : BlockMeta) :
    (s.putMeta id m).metaStore id' = s.metaStore id' := by
  simp [putMeta, h]

/-- A new meta that is listed as the old one keeps the list correct. -/
theorem LruIndexed.putMeta (h : LruIndexed s)
    (hid : ∀ t, Listed (s.metaStore id) t ↔ Listed (some m) t) : LruIndexed (s.putMeta id m) := by
  refine h.of_frame id (fun id' hne => putMeta_of_ne hne m) (fun _ _ _ => Iff.rfl) fun t => ?_
  rw [putMeta_self, ← hid t]
  exact h t id

/-- A new meta that is not listed, with the old entry removed. -/
theorem LruIndexed.deleteLru_putMeta (h : LruIndexed s) {m' : BlockMeta}
    (hm : s.metaStore id = some m) (hpin : m'.pin = true) :
    LruIndexed ((s.deleteLru id m.lastUsed).putMeta id m') := by
  refine h.of_frame id (fun id' hne => putMeta_of_ne hne m') (fun t id' hne => ?_) fun t => ?_
  · show (t, id') ∈ (s.deleteLru id m.lastUsed).recentlyUsedStore ↔ _
    rw [mem_deleteLru]
    simp [hne]
  · rw [putMeta_self]
    constructor
    · intro hmem
      obtain ⟨hne, hmem⟩ := mem_deleteLru.mp hmem
      obtain ⟨m₁, hm₁, -, -, ht⟩ := (h t id).mp hmem
      rw [hm] at hm₁
      cases hm₁
      exact absurd ⟨ht.symm, rfl⟩ hne
    · exact fun hl => absurd hl (not_listed_of_pin hpin t)

/-- A new meta that is listed, with its entry added, for a block that was not listed. -/
theorem LruIndexed.putLru_putMeta (h : LruIndexed s) (hnot : ∀ t, ¬ Listed (s.metaStore id) t)
    (hs : m.synced = true) (hp : m.pin = false) :
    LruIndexed ((s.putLru id m.lastUsed).putMeta id m) := by
  refine h.of_frame id (fun id' hne => putMeta_of_ne hne m) (fun t id' hne => ?_) fun t => ?_
  · show (t, id') ∈ (s.putLru id m.lastUsed).recentlyUsedStore ↔ _
    rw [mem_putLru]
    simp [hne]
  · rw [putMeta_self, listed_iff hs hp]
    show (t, id) ∈ (s.putLru id m.lastUsed).recentlyUsedStore ↔ _
    rw [mem_putLru]
    constructor
    · rintro (⟨ht, -⟩ | hmem)
      · exact ht
      · exact absurd ((h t id).mp hmem) (hnot t)
    · intro ht
      exact .inl ⟨ht, rfl⟩

/-- The entry of a listed block is moved to a new time. -/
theorem LruIndexed.moveLru (h : LruIndexed s) (hm : s.metaStore id = some m)
    (hs : m.synced = true) (hp : m.pin = false) (now : Timestamp) :
    LruIndexed (((s.deleteLru id m.lastUsed).putLru id now).putMeta id
      { m with lastUsed := now }) := by
  refine h.of_frame id (fun id' hne => putMeta_of_ne hne _) (fun t id' hne => ?_) fun t => ?_
  · show (t, id') ∈ ((s.deleteLru id m.lastUsed).putLru id now).recentlyUsedStore ↔ _
    rw [mem_putLru, mem_deleteLru]
    simp [hne]
  · rw [putMeta_self, listed_iff (m := { m with lastUsed := now }) hs hp]
    show (t, id) ∈ ((s.deleteLru id m.lastUsed).putLru id now).recentlyUsedStore ↔ _
    rw [mem_putLru, mem_deleteLru]
    constructor
    · rintro (⟨ht, -⟩ | ⟨hne, hmem⟩)
      · exact ht
      · rw [h t id, hm, listed_iff hs hp] at hmem
        exact absurd ⟨hmem, rfl⟩ hne
    · intro ht
      exact .inl ⟨ht, rfl⟩

/-! ### Transactions -/

/-- The write transaction of `get` keeps the list if the meta it has read is still there, or if it
is pinned then and now. -/
theorem LruIndexed.recordUse (h : LruIndexed s) {now : Timestamp} (hs : m.synced = true)
    (hpin : m.pin = true → ∃ m', s.metaStore id = some m' ∧ m'.pin = true)
    (hcur : m.pin = false → s.metaStore id = some m)
    (hrun : recordUse appendDup now id m s = .ok s') : LruIndexed s' := by
  obtain ⟨hp, rfl⟩ | ⟨hp, -, rfl⟩ := recordUse_ok hrun
  · obtain ⟨m', hm', hp'⟩ := hpin hp
    refine h.putMeta fun t => ?_
    rw [hm']
    exact iff_of_false (not_listed_of_pin hp' t)
      (not_listed_of_pin (m := { m with lastUsed := now }) hp t)
  · exact h.moveLru (hcur hp) hs hp now

theorem LruIndexed.setPinTxn (h : LruIndexed s) {add : Bool}
    (hrun : setPinTxn appendDup id add s = .ok s') : LruIndexed s' := by
  obtain ⟨⟨rfl, -⟩, -⟩ | ⟨hm, -, rfl⟩ | ⟨m, hm, hp, hcase⟩ := setPinTxn_ok hrun
  · exact h
  · refine h.putMeta fun t => ?_
    rw [hm]
    refine iff_of_false ?_ (not_listed_of_pin rfl t)
    rintro ⟨_, h0, -⟩
    cases h0
  · obtain ⟨hs, rfl⟩ | ⟨hs, rfl, -, rfl⟩ | ⟨hs, rfl, rfl⟩ := hcase
    · refine h.putMeta fun t => ?_
      rw [hm]
      exact iff_of_false (not_listed_of_unsynced hs t)
        (not_listed_of_unsynced (m := { m with pin := add }) hs t)
    · exact h.deleteLru_putMeta hm rfl
    · refine h.putLru_putMeta (m := { m with pin := false }) (fun t => ?_) hs rfl
      rw [hm]
      exact not_listed_of_pin hp t

theorem LruIndexed.hasBeenSyncedTxn (h : LruIndexed s) {now : Timestamp}
    (hrun : hasBeenSyncedTxn appendDup id now s = .ok s') : LruIndexed s' := by
  obtain ⟨rfl, -⟩ | ⟨hm, rfl⟩ | ⟨m, hm, hs, hcase⟩ := hasBeenSyncedTxn_ok hrun
  · exact h
  · refine h.putLru_putMeta (m := ⟨false, now, true⟩) (fun t => ?_) rfl rfl
    rw [hm]
    rintro ⟨_, h0, -⟩
    cases h0
  · have hnot : ∀ t, ¬ Listed (s.metaStore id) t := fun t => by
      rw [hm]
      exact not_listed_of_unsynced hs t
    obtain ⟨hp, rfl⟩ | ⟨hp, rfl⟩ := hcase
    · exact h.putMeta fun t => iff_of_false (hnot t)
        (not_listed_of_pin (m := { m with synced := true, lastUsed := now }) hp t)
    · exact h.putLru_putMeta (m := { m with synced := true, lastUsed := now }) hnot rfl hp

/-- `del` takes an unpinned synced block for unlisted if its last use is the time 0. -/
def DelSeesLru (s : LmdbRepoStore) (id : BlockId) : Prop :=
  ∀ m, s.metaStore id = some m → m.synced = true → m.pin = false → m.lastUsed ≠ 0

theorem LruIndexed.dropMeta (h : LruIndexed s) (hsees : s.DelSeesLru id) :
    LruIndexed (s.dropMeta id) := by
  unfold LmdbRepoStore.dropMeta
  cases hm : s.metaStore id with
  | none => exact h
  | some m =>
    have hnone : ((if m.lastUsed ≠ 0 then s.deleteLru id m.lastUsed else s).deleteMeta id).metaStore
        id = none := by simp [deleteMeta]
    refine h.of_frame id (fun id' hne => ?_) (fun t id' hne => ?_) fun t => ?_
    · dsimp only [deleteMeta]
      rw [Function.update_of_ne hne]
      split <;> rfl
    · show (t, id') ∈
        (if m.lastUsed ≠ 0 then s.deleteLru id m.lastUsed else s).recentlyUsedStore ↔ _
      split
      · rw [mem_deleteLru]
        simp [hne]
      · exact Iff.rfl
    · rw [hnone]
      refine iff_of_false ?_ (by rintro ⟨_, h0, -⟩; cases h0)
      show (t, id) ∉ (if m.lastUsed ≠ 0 then s.deleteLru id m.lastUsed else s).recentlyUsedStore
      split
      · rw [mem_deleteLru]
        rintro ⟨hne, hin⟩
        obtain ⟨m', hm', -, -, ht⟩ := (h t id).mp hin
        rw [hm] at hm'
        cases hm'
        exact hne ⟨ht.symm, rfl⟩
      · rename_i hzero
        intro hin
        obtain ⟨m', hm', hs, hp, -⟩ := (h t id).mp hin
        rw [hm] at hm'
        cases hm'
        exact hzero (hsees m hm hs hp)

theorem lruIndexed_congr (hmeta : s'.metaStore = s.metaStore)
    (hlru : s'.recentlyUsedStore = s.recentlyUsedStore) (h : LruIndexed s) : LruIndexed s' := by
  unfold LruIndexed
  rw [hmeta, hlru]
  exact h

theorem LruIndexed.delTxn (h : LruIndexed s) {block : Block} (hsees : s.DelSeesLru id)
    (hrun : delTxn id block s = .ok s') : LruIndexed s' := by
  obtain ⟨-, rfl⟩ := delTxn_ok hrun
  refine lruIndexed_congr ?_ ?_ (h.dropMeta hsees)
  · unfold dropExpiry
    split <;> rfl
  · unfold dropExpiry
    split <;> rfl

end Lru

/-! ## Times -/

/-- The last use of a block is recorded from its synchronisation on. -/
def Timed (s : LmdbRepoStore) : Prop :=
  ∀ id m, s.metaStore id = some m → (m.synced = true ↔ m.lastUsed ≠ 0)

section Timed

variable {s s' : LmdbRepoStore} {id : BlockId} {m : BlockMeta}

theorem Timed.delSeesLru (h : Timed s) (id : BlockId) : s.DelSeesLru id :=
  fun m hm hs _ => (h id m hm).mp hs

theorem Timed.of_metaStore (h : Timed s)
    (hmeta : s'.metaStore = Function.update s.metaStore id (some m))
    (hm : m.synced = true ↔ m.lastUsed ≠ 0) : Timed s' := by
  intro id' m' hm'
  rw [hmeta] at hm'
  by_cases heq : id' = id
  · subst heq
    rw [Function.update_self] at hm'
    cases hm'
    exact hm
  · rw [Function.update_of_ne heq] at hm'
    exact h id' m' hm'

theorem Timed.recordUse (h : Timed s) {now : Timestamp} (hs : m.synced = true) (hnow : now ≠ 0)
    (hrun : recordUse appendDup now id m s = .ok s') : Timed s' := by
  have hm : ({ m with lastUsed := now } : BlockMeta).synced = true ↔ now ≠ 0 := by
    simp [hs, hnow]
  obtain ⟨-, rfl⟩ | ⟨-, -, rfl⟩ := recordUse_ok hrun
  · exact h.of_metaStore rfl hm
  · exact h.of_metaStore rfl hm

theorem Timed.setPinTxn (h : Timed s) {add : Bool}
    (hrun : setPinTxn appendDup id add s = .ok s') : Timed s' := by
  obtain ⟨⟨rfl, -⟩, -⟩ | ⟨-, -, rfl⟩ | ⟨m, hm, -, hcase⟩ := setPinTxn_ok hrun
  · exact h
  · exact h.of_metaStore rfl (by simp)
  · have hm' := h id m hm
    obtain ⟨-, rfl⟩ | ⟨-, -, -, rfl⟩ | ⟨-, -, rfl⟩ := hcase
    · exact h.of_metaStore rfl hm'
    · exact h.of_metaStore rfl hm'
    · exact h.of_metaStore rfl hm'

theorem Timed.hasBeenSyncedTxn (h : Timed s) {now : Timestamp} (hnow : now ≠ 0)
    (hrun : hasBeenSyncedTxn appendDup id now s = .ok s') : Timed s' := by
  obtain ⟨rfl, -⟩ | ⟨-, rfl⟩ | ⟨m, -, -, hcase⟩ := hasBeenSyncedTxn_ok hrun
  · exact h
  · exact h.of_metaStore rfl (by simp [hnow])
  · obtain ⟨-, rfl⟩ | ⟨-, rfl⟩ := hcase
    · exact h.of_metaStore rfl (by simp [hnow])
    · exact h.of_metaStore rfl (by simp [hnow])

theorem dropMeta_metaStore (s : LmdbRepoStore) (id : BlockId) :
    (s.dropMeta id).metaStore = Function.update s.metaStore id none := by
  unfold LmdbRepoStore.dropMeta
  cases hm : s.metaStore id with
  | none =>
    show s.metaStore = _
    rw [← hm, Function.update_eq_self]
  | some m =>
    dsimp only [deleteMeta]
    split <;> rfl

theorem delTxn_metaStore {block : Block} (hrun : delTxn id block s = .ok s') :
    s'.metaStore = Function.update s.metaStore id none := by
  obtain ⟨-, rfl⟩ := delTxn_ok hrun
  rw [← dropMeta_metaStore]
  unfold dropExpiry
  split <;> rfl

theorem Timed.delTxn (h : Timed s) {block : Block} (hrun : delTxn id block s = .ok s') :
    Timed s' := by
  intro id' m' hm'
  rw [delTxn_metaStore hrun] at hm'
  by_cases heq : id' = id
  · subst heq
    rw [Function.update_self] at hm'
    cases hm'
  · rw [Function.update_of_ne heq] at hm'
    exact h id' m' hm'

end Timed

/-! ## The expiry list -/

/-- A stored block with the expiry `e`. -/
def HasExpiry (P : Primitives) (ser? : Option Bytes) (e : Timestamp) : Prop :=
  ∃ ser b, ser? = some ser ∧ Block.fromSlice P ser = some b ∧ b.expiry = some e

/-- Blocks of `B` with the same id have the same body. -/
def IdsDistinct (P : Primitives) (B : Set Block) : Prop :=
  ∀ b ∈ B, ∀ b' ∈ B, b.id P = b'.id P → b.toBlockBody = b'.toBlockBody

/-- The main store holds serialized blocks of `B` under their ids, and the expiry list holds exactly
those with an expiry. -/
structure ExpiryIndexed (P : Primitives) (B : Set Block) (s : LmdbRepoStore) : Prop where
  main : ∀ id ser, s.mainStore id = some ser → ∃ b ∈ B, b.id P = id ∧ ser = b.toVec P
  expiry : ∀ e id, (e, id) ∈ s.expiryStore ↔ HasExpiry P (s.mainStore id) e

section Expiry

variable {s s' : LmdbRepoStore} {id : BlockId} {B : Set Block}

theorem hasExpiry_toVec (hP : P.SerdeLaws) (b : Block) (e : Timestamp) :
    HasExpiry P (some (b.toVec P)) e ↔ b.expiry = some e := by
  constructor
  · rintro ⟨ser, b', hser, hb', he⟩
    cases hser
    rw [Block.fromSlice_toVec hP] at hb'
    cases hb'
    exact he
  · intro he
    exact ⟨_, _, rfl, Block.fromSlice_toVec hP b, he⟩

theorem not_hasExpiry_none (e : Timestamp) : ¬ HasExpiry P none e := by
  rintro ⟨_, _, h, -⟩
  cases h

theorem expiryIndexed_congr (hmain : s'.mainStore = s.mainStore)
    (hexp : s'.expiryStore = s.expiryStore) (h : ExpiryIndexed P B s) : ExpiryIndexed P B s' := by
  constructor
  · rw [hmain]
    exact h.main
  · rw [hmain, hexp]
    exact h.expiry

theorem recordUse_frame {now : Timestamp} {m : BlockMeta}
    (hrun : recordUse appendDup now id m s = .ok s') :
    s'.mainStore = s.mainStore ∧ s'.expiryStore = s.expiryStore := by
  obtain ⟨-, rfl⟩ | ⟨-, -, rfl⟩ := recordUse_ok hrun
  · exact ⟨rfl, rfl⟩
  · exact ⟨rfl, rfl⟩

theorem recordUse_metaStore {now : Timestamp} {m : BlockMeta}
    (h : recordUse appendDup now id m s = .ok s') :
    s'.metaStore = Function.update s.metaStore id (some { m with lastUsed := now }) := by
  obtain ⟨-, rfl⟩ | ⟨-, -, rfl⟩ := recordUse_ok h
  · rfl
  · rfl

theorem setPinTxn_frame {add : Bool} (hrun : setPinTxn appendDup id add s = .ok s') :
    s'.mainStore = s.mainStore ∧ s'.expiryStore = s.expiryStore := by
  obtain ⟨⟨rfl, -⟩, -⟩ | ⟨-, -, rfl⟩ | ⟨m, -, -, ⟨-, rfl⟩ | ⟨-, -, -, rfl⟩ | ⟨-, -, rfl⟩⟩ :=
    setPinTxn_ok hrun
  all_goals exact ⟨rfl, rfl⟩

theorem hasBeenSyncedTxn_frame {now : Timestamp}
    (hrun : hasBeenSyncedTxn appendDup id now s = .ok s') :
    s'.mainStore = s.mainStore ∧ s'.expiryStore = s.expiryStore := by
  obtain ⟨rfl, -⟩ | ⟨-, rfl⟩ | ⟨m, -, -, ⟨-, rfl⟩ | ⟨-, rfl⟩⟩ := hasBeenSyncedTxn_ok hrun
  all_goals exact ⟨rfl, rfl⟩

theorem putTxn_mainStore (b : Block) :
    (putTxn P b s).mainStore = Function.update s.mainStore (b.id P) (some (b.toVec P)) := by
  unfold putTxn
  cases b.expiry <;> rfl

theorem putTxn_metaStore (b : Block) : (putTxn P b s).metaStore = s.metaStore := by
  unfold putTxn
  cases b.expiry <;> rfl

theorem putTxn_recentlyUsedStore (b : Block) :
    (putTxn P b s).recentlyUsedStore = s.recentlyUsedStore := by
  unfold putTxn
  cases b.expiry <;> rfl

theorem mem_putTxn_expiryStore (b : Block) {e : Timestamp} {id' : BlockId} :
    (e, id') ∈ (putTxn P b s).expiryStore ↔
      (b.expiry = some e ∧ id' = b.id P) ∨ (e, id') ∈ s.expiryStore := by
  unfold putTxn
  cases hb : b.expiry with
  | none => simp [putMain]
  | some e' =>
    simp only [putExpiry, Finset.mem_insert, Prod.mk.injEq, Option.some.injEq, eq_comm]
    rfl

/-- A put of a block of `B`: the block that was there under its id, if any, has the same body. -/
theorem ExpiryIndexed.putTxn (hP : P.SerdeLaws) (hB : IdsDistinct P B) (h : ExpiryIndexed P B s)
    {b : Block} (hb : b ∈ B) : ExpiryIndexed P B (putTxn P b s) := by
  constructor
  · intro id ser hser
    rw [putTxn_mainStore] at hser
    by_cases heq : id = b.id P
    · subst heq
      rw [Function.update_self] at hser
      cases hser
      exact ⟨b, hb, rfl, rfl⟩
    · rw [Function.update_of_ne heq] at hser
      exact h.main id ser hser
  · intro e id
    rw [mem_putTxn_expiryStore, putTxn_mainStore, h.expiry e id]
    by_cases heq : id = b.id P
    · subst heq
      rw [Function.update_self, hasExpiry_toVec hP]
      constructor
      · rintro (⟨he, -⟩ | hold)
        · exact he
        · cases hser : s.mainStore (b.id P) with
          | none =>
            rw [hser] at hold
            exact absurd hold (not_hasExpiry_none e)
          | some ser =>
            obtain ⟨b', hb', hid, rfl⟩ := h.main _ _ hser
            rw [hser, hasExpiry_toVec hP] at hold
            rw [hB b hb b' hb' hid.symm, hold]
      · intro he
        exact .inl ⟨he, rfl⟩
    · rw [Function.update_of_ne heq]
      simp [heq]

theorem delTxn_mainStore {block : Block} (hrun : delTxn id block s = .ok s') :
    s'.mainStore = Function.update s.mainStore id none := by
  obtain ⟨-, rfl⟩ := delTxn_ok hrun
  unfold dropExpiry LmdbRepoStore.dropMeta deleteMain
  cases s.metaStore id <;> cases block.expiry <;> dsimp only [deleteMeta, deleteExpiry] <;>
    split <;> rfl

theorem mem_delTxn_expiryStore {block : Block} (hrun : delTxn id block s = .ok s')
    {e : Timestamp} {id' : BlockId} :
    (e, id') ∈ s'.expiryStore ↔
      ¬ (block.expiry = some e ∧ id' = id) ∧ (e, id') ∈ s.expiryStore := by
  obtain ⟨-, rfl⟩ := delTxn_ok hrun
  have hdrop : ((s.dropMeta id).deleteMain id).expiryStore = s.expiryStore :=
    s.dropMeta_expiryStore id
  unfold dropExpiry
  cases block.expiry with
  | none => simp [hdrop]
  | some e' =>
    simp only [deleteExpiry, hdrop, Finset.mem_erase, ne_eq, Prod.mk.injEq, Option.some.injEq,
      @eq_comm _ e' e]

theorem ExpiryIndexed.delTxn (h : ExpiryIndexed P B s) {ser : Bytes} {block : Block}
    (hser : s.mainStore id = some ser) (hblock : Block.fromSlice P ser = some block)
    (hrun : delTxn id block s = .ok s') : ExpiryIndexed P B s' := by
  constructor
  · intro id' ser' hser'
    rw [delTxn_mainStore hrun] at hser'
    by_cases heq : id' = id
    · subst heq
      rw [Function.update_self] at hser'
      cases hser'
    · rw [Function.update_of_ne heq] at hser'
      exact h.main id' ser' hser'
  · intro e id'
    rw [mem_delTxn_expiryStore hrun, delTxn_mainStore hrun, h.expiry e id']
    by_cases heq : id' = id
    · subst heq
      rw [Function.update_self]
      refine iff_of_false ?_ (not_hasExpiry_none e)
      rintro ⟨hne, ser', b, hser', hb, he⟩
      rw [hser] at hser'
      cases hser'
      rw [hblock] at hb
      cases hb
      exact hne ⟨he, rfl⟩
    · rw [Function.update_of_ne heq]
      simp [heq]

end Expiry

end LmdbRepoStore

end Lofire
