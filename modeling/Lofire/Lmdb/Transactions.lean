import Lofire.Lmdb.RepoStore

/-!
# What the transactions do

For each write transaction of `LmdbRepoStore`, when it is committed and which entries it changes.
The results about runs use these lemmas and do not look into the transactions again.
-/

namespace Lofire

open Lib

namespace LmdbRepoStore

variable {P : Primitives} {appendDup : Finset BlockId → BlockId → Bool} {s s' : LmdbRepoStore}
  {id : BlockId} {t now : Timestamp} {m : BlockMeta}

theorem bind_eq_ok {ε α β : Type} {x : Except ε α} {f : α → Except ε β} {b : β} :
    x >>= f = .ok b ↔ ∃ a, x = .ok a ∧ f a = .ok b := by
  cases x with
  | error e =>
    constructor
    · intro h
      cases h
    · rintro ⟨a, ha, -⟩
      cases ha
  | ok a =>
    constructor
    · intro h
      exact ⟨a, rfl, h⟩
    · rintro ⟨a', ha, h⟩
      cases ha
      exact h

/-! ## The LRU list -/

theorem removeFromLru_ok :
    removeFromLru id t s = .ok s' ↔ (t, id) ∈ s.recentlyUsedStore ∧ s' = s.deleteLru id t := by
  unfold removeFromLru
  split
  · rename_i hmem
    constructor
    · intro h
      cases h
      exact ⟨hmem, rfl⟩
    · rintro ⟨-, rfl⟩
      rfl
  · rename_i hmem
    constructor
    · intro h
      cases h
    · rintro ⟨h, -⟩
      exact absurd h hmem

theorem addToLru_ok :
    addToLru appendDup id t s = .ok s' ↔
      appendDup (s.recentlyUsedStore.values t) id = true ∧ s' = s.putLru id t := by
  unfold addToLru
  split
  · rename_i hacc
    constructor
    · intro h
      cases h
      exact ⟨hacc, rfl⟩
    · rintro ⟨-, rfl⟩
      rfl
  · rename_i hacc
    constructor
    · intro h
      cases h
    · rintro ⟨h, -⟩
      exact absurd h hacc

/-! ## `get` -/

theorem recordUse_ok (h : recordUse appendDup now id m s = .ok s') :
    (m.pin = true ∧ s' = s.putMeta id { m with lastUsed := now }) ∨
      (m.pin = false ∧ (m.lastUsed, id) ∈ s.recentlyUsedStore ∧
        s' = ((s.deleteLru id m.lastUsed).putLru id now).putMeta id
        { m with lastUsed := now }) := by
  unfold recordUse at h
  obtain ⟨s₁, h₁, h⟩ := bind_eq_ok.mp h
  cases h
  cases hp : m.pin with
  | true =>
    rw [hp] at h₁
    cases h₁
    exact .inl ⟨rfl, rfl⟩
  | false =>
    rw [hp, if_neg (by simp)] at h₁
    obtain ⟨s₂, h₂, h₁⟩ := bind_eq_ok.mp h₁
    obtain ⟨hmem, rfl⟩ := removeFromLru_ok.mp h₂
    obtain ⟨-, rfl⟩ := addToLru_ok.mp h₁
    exact .inr ⟨rfl, hmem, rfl⟩

theorem useToRecord_eq (h : s.useToRecord id = some m) :
    s.metaStore id = some m ∧ m.synced = true := by
  unfold useToRecord at h
  split at h
  · cases h
  · rw [Option.filter_eq_some_iff] at h
    exact h

/-! ## `set_pin` and `has_been_synced` -/

theorem setPinTxn_ok {add : Bool} (h : setPinTxn appendDup id add s = .ok s') :
    (s' = s ∧ ∀ m, s.metaStore id = some m → m.pin = add) ∧ (s.metaStore id = none → add = false) ∨
      (s.metaStore id = none ∧ add = true ∧ s' = s.putMeta id ⟨true, 0, false⟩) ∨
      ∃ m, s.metaStore id = some m ∧ m.pin = !add ∧
        (m.synced = false ∧ s' = s.putMeta id { m with pin := add } ∨
          m.synced = true ∧ add = true ∧ (m.lastUsed, id) ∈ s.recentlyUsedStore ∧
            s' = (s.deleteLru id m.lastUsed).putMeta id { m with pin := add } ∨
          m.synced = true ∧ add = false ∧
            s' = (s.putLru id m.lastUsed).putMeta id { m with pin := add }) := by
  unfold setPinTxn at h
  cases hm : s.metaStore id with
  | none =>
    simp only [hm] at h
    cases add with
    | true =>
      cases h
      exact .inr (.inl ⟨rfl, rfl, rfl⟩)
    | false =>
      cases h
      exact .inl ⟨⟨rfl, by simp⟩, fun _ => rfl⟩
  | some m =>
    simp only [hm] at h
    split at h
    · rename_i hpin
      cases h
      refine .inl ⟨⟨rfl, ?_⟩, by simp⟩
      intro m' hm'
      cases hm'
      exact hpin.symm
    · rename_i hpin
      have hpin : m.pin = !add := by
        cases hp : m.pin <;> cases add <;> simp_all
      refine .inr (.inr ⟨m, rfl, hpin, ?_⟩)
      obtain ⟨s₁, h₁, h⟩ := bind_eq_ok.mp h
      cases h
      cases hs : m.synced with
      | false =>
        rw [hs] at h₁
        cases h₁
        exact .inl ⟨rfl, rfl⟩
      | true =>
        rw [hs] at h₁
        cases add with
        | true =>
          obtain ⟨hmem, rfl⟩ := removeFromLru_ok.mp h₁
          exact .inr (.inl ⟨rfl, rfl, hmem, rfl⟩)
        | false =>
          obtain ⟨-, rfl⟩ := addToLru_ok.mp h₁
          exact .inr (.inr ⟨rfl, rfl, rfl⟩)

theorem hasBeenSyncedTxn_ok (h : hasBeenSyncedTxn appendDup id now s = .ok s') :
    (s' = s ∧ ∃ m, s.metaStore id = some m ∧ m.synced = true) ∨
      (s.metaStore id = none ∧ s' = (s.putLru id now).putMeta id ⟨false, now, true⟩) ∨
      ∃ m, s.metaStore id = some m ∧ m.synced = false ∧
        (m.pin = true ∧ s' = s.putMeta id { m with synced := true, lastUsed := now } ∨
          m.pin = false ∧
            s' = (s.putLru id now).putMeta id { m with synced := true, lastUsed := now }) := by
  unfold hasBeenSyncedTxn at h
  cases hm : s.metaStore id with
  | none =>
    simp only [hm] at h
    obtain ⟨s₁, h₁, h⟩ := bind_eq_ok.mp h
    cases h
    obtain ⟨-, rfl⟩ := addToLru_ok.mp h₁
    exact .inr (.inl ⟨rfl, rfl⟩)
  | some m =>
    simp only [hm] at h
    cases hs : m.synced with
    | true =>
      rw [hs] at h
      cases h
      exact .inl ⟨rfl, m, rfl, hs⟩
    | false =>
      rw [hs, if_neg (by simp)] at h
      obtain ⟨s₁, h₁, h⟩ := bind_eq_ok.mp h
      cases h
      refine .inr (.inr ⟨m, rfl, hs, ?_⟩)
      cases hp : m.pin with
      | true =>
        rw [hp] at h₁
        cases h₁
        exact .inl ⟨rfl, rfl⟩
      | false =>
        rw [hp] at h₁
        obtain ⟨-, rfl⟩ := addToLru_ok.mp h₁
        exact .inr ⟨rfl, rfl⟩

/-! ## `put` and `del` -/

/-- The tables after the meta and the LRU entry of `id` are removed. -/
def dropMeta (id : BlockId) (s : LmdbRepoStore) : LmdbRepoStore :=
  match s.metaStore id with
  | none => s
  | some m => (if m.lastUsed ≠ 0 then s.deleteLru id m.lastUsed else s).deleteMeta id

/-- The tables after the expiry entry of the block `id` is removed. -/
def dropExpiry (id : BlockId) (expiry : Option Timestamp) (s : LmdbRepoStore) : LmdbRepoStore :=
  match expiry with
  | none => s
  | some e => s.deleteExpiry id e

theorem delTxn_ok {block : Block} (h : delTxn id block s = .ok s') :
    (∀ m, s.metaStore id = some m → m.lastUsed ≠ 0 → (m.lastUsed, id) ∈ s.recentlyUsedStore) ∧
      s' = ((s.dropMeta id).deleteMain id).dropExpiry id block.expiry := by
  unfold delTxn at h
  obtain ⟨s₁, h₁, h⟩ := bind_eq_ok.mp h
  have hmeta : (∀ m, s.metaStore id = some m → m.lastUsed ≠ 0 →
      (m.lastUsed, id) ∈ s.recentlyUsedStore) ∧ s₁ = s.dropMeta id := by
    unfold dropMeta
    cases hm : s.metaStore id with
    | none =>
      simp only [hm] at h₁
      cases h₁
      exact ⟨by simp, rfl⟩
    | some m =>
      simp only [hm] at h₁
      obtain ⟨s₂, h₂, h₁⟩ := bind_eq_ok.mp h₁
      cases h₁
      by_cases hlast : m.lastUsed ≠ 0
      · rw [if_pos hlast] at h₂
        obtain ⟨hmem, rfl⟩ := removeFromLru_ok.mp h₂
        refine ⟨?_, by simp only [if_pos hlast]⟩
        intro m' hm' _
        cases hm'
        exact hmem
      · rw [if_neg hlast] at h₂
        cases h₂
        refine ⟨?_, by simp only [if_neg hlast]⟩
        intro m' hm' hlast'
        cases hm'
        exact absurd hlast' hlast
  refine ⟨hmeta.1, ?_⟩
  rw [← hmeta.2]
  cases hexp : block.expiry with
  | none =>
    simp only [hexp] at h
    cases h
    rfl
  | some e =>
    simp only [hexp] at h
    split at h
    · cases h
      rfl
    · cases h

theorem dropMeta_expiryStore (s : LmdbRepoStore) (id : BlockId) :
    (s.dropMeta id).expiryStore = s.expiryStore := by
  unfold dropMeta
  cases s.metaStore id with
  | none => rfl
  | some m =>
    dsimp only [deleteMeta]
    split <;> rfl

/-- `del` succeeds on a block whose LRU entry and expiry entry it finds. -/
theorem delTxn_returns {block : Block}
    (hlru : ∀ m, s.metaStore id = some m → m.lastUsed ≠ 0 → (m.lastUsed, id) ∈ s.recentlyUsedStore)
    (hexp : ∀ e, block.expiry = some e → (e, id) ∈ s.expiryStore) :
    ∃ s', delTxn id block s = .ok s' := by
  refine ⟨((s.dropMeta id).deleteMain id).dropExpiry id block.expiry, ?_⟩
  unfold delTxn
  refine bind_eq_ok.mpr ⟨s.dropMeta id, ?_, ?_⟩
  · unfold dropMeta
    cases hm : s.metaStore id with
    | none => rfl
    | some m =>
      dsimp only
      by_cases hlast : m.lastUsed ≠ 0
      · rw [if_pos hlast, if_pos hlast, removeFromLru_ok.mpr ⟨hlru m hm hlast, rfl⟩]
        rfl
      · rw [if_neg hlast, if_neg hlast]
        rfl
  · cases he : block.expiry with
    | none => rfl
    | some e =>
      have hmem : (e, id) ∈ ((s.dropMeta id).deleteMain id).expiryStore := by
        show (e, id) ∈ (s.dropMeta id).expiryStore
        rw [dropMeta_expiryStore]
        exact hexp e he
      exact if_pos hmem

end LmdbRepoStore

end Lofire
