import Lofire.Lmdb.Uses

/-!
# A block that is pinned for a while

The uses of a pinned block are recorded in its meta only, and `unpin` files the block under the last
of them. Two runs of the same calls are compared here, one of them with the block pinned: at every
moment the tables of the second are those of the first with the pin in the meta of the block and
without its LRU entry (`Pinned`).
-/

namespace Lofire

open Lib

namespace LmdbRepoStore

variable {P : Primitives} {appendDup : Finset BlockId → BlockId → Bool}
  {s s' : LmdbRepoStore} {id id' : BlockId} {m : BlockMeta} {t now : Timestamp}

/-! ## The results of calls -/

/-- What a call returns. -/
inductive Reply
  | put (res : Except StorageError BlockId)
  | get (res : Except StorageError Block)
  | del (res : Except StorageError (Block × Nat))
  | setPin (res : Except StorageError Unit)
  | hasBeenSynced
  | removeExpired
  | removeLeastUsed (total : Nat)
  | panicked (p : Panic)

def Reply.of {α : Type} (f : α → Reply) : EStateM.Result Panic LmdbRepoStore α → Reply
  | .ok a _ => f a
  | .error p _ => .panicked p

section

variable (P : Primitives) (appendDup : Finset BlockId → BlockId → Bool)

/-- What the call returns from the tables `s`. -/
def reply : Op → LmdbRepoStore → Reply
  | .put block, s => .of .put (put P block s)
  | .get now id, s => .of .get (get P appendDup now id s)
  | .del id, s => .of .del (del P id s)
  | .setPin id add, s => .of .setPin (setPin appendDup id add s)
  | .hasBeenSynced id when? now, s =>
    .of (fun _ => .hasBeenSynced) (hasBeenSynced appendDup id when? now s)
  | .removeExpired now, s => .of (fun _ => .removeExpired) (removeExpired P now s)
  | .removeLeastUsed size, s => .of .removeLeastUsed (removeLeastUsed P size s)

/-- What a sequence of calls returns. -/
def replies : List Op → LmdbRepoStore → List Reply
  | [], _ => []
  | op :: ops, s => reply P appendDup op s :: replies ops (exec P appendDup op s)

/-- The tables after a sequence of calls from the tables `s`. -/
def runFrom (ops : List Op) (s : LmdbRepoStore) : LmdbRepoStore :=
  ops.foldl (fun s op => exec P appendDup op s) s

/-- The LRU entry is accepted, if the call files the block. -/
def Use.Inserted (u : Use) (s : LmdbRepoStore) (id : BlockId) : Prop :=
  u.Files s id → appendDup (u.listed s id) id = true

/-- The LRU insertion of the call succeeds, if it makes one. -/
def Op.Inserted (s : LmdbRepoStore) : Op → Prop
  | .get now id => (Use.get now).Inserted appendDup s id
  | .setPin id false => Use.unpin.Inserted appendDup s id
  | .hasBeenSynced id when? now => (Use.hasBeenSynced when? now).Inserted appendDup s id
  | _ => True

/-- The LRU insertions of a sequence of calls succeed. -/
def Inserted : List Op → LmdbRepoStore → Prop
  | [], _ => True
  | op :: ops, s => op.Inserted appendDup s ∧ Inserted ops (exec P appendDup op s)

end

/-! ## The tables beside each other -/

/-- The meta of a block after it is pinned. -/
def pinnedMeta (m? : Option BlockMeta) : BlockMeta :=
  m?.elim ⟨true, 0, false⟩ fun m => { m with pin := true }

theorem pinnedMeta_pin (m? : Option BlockMeta) : (pinnedMeta m?).pin = true := by
  cases m? <;> rfl

/-- The last use of a block that is in the tables, or 0. -/
def lastUse (s : LmdbRepoStore) (id : BlockId) : Timestamp :=
  (s.metaStore id).elim 0 BlockMeta.lastUsed

theorem pinnedMeta_lastUsed : (pinnedMeta (s.metaStore id)).lastUsed = s.lastUse id := by
  unfold lastUse
  cases s.metaStore id <;> rfl

/-- The tables `s'` are those of `s`, but with `id` pinned. -/
structure Pinned (id : BlockId) (s s' : LmdbRepoStore) : Prop where
  main : s'.mainStore = s.mainStore
  expiry : s'.expiryStore = s.expiryStore
  metas : s'.metaStore = Function.update s.metaStore id (some (pinnedMeta (s.metaStore id)))
  unpinned : ∀ m, s.metaStore id = some m → m.pin = false
  listed : ∀ t, Listed (s.metaStore id) t → (t, id) ∈ s.recentlyUsedStore
  lru : ∀ t id', (t, id') ∈ s'.recentlyUsedStore ↔
    (t, id') ∈ s.recentlyUsedStore ∧ ¬ (id' = id ∧ Listed (s.metaStore id) t)

namespace Pinned

theorem meta_of_ne (h : Pinned id s s') (hne : id' ≠ id) : s'.metaStore id' = s.metaStore id' := by
  rw [h.metas, Function.update_of_ne hne]

theorem meta_self (h : Pinned id s s') : s'.metaStore id = some (pinnedMeta (s.metaStore id)) := by
  rw [h.metas, Function.update_self]

theorem mem_lru_of_ne (h : Pinned id s s') (hne : id' ≠ id) :
    (t, id') ∈ s'.recentlyUsedStore ↔ (t, id') ∈ s.recentlyUsedStore := by
  rw [h.lru]
  exact and_iff_left fun heq => hne heq.1

/-- A synced block is listed on the side where it is not pinned. -/
theorem mem_lru (h : Pinned id s s') (hs : (pinnedMeta (s.metaStore id)).synced = true) :
    ((pinnedMeta (s.metaStore id)).lastUsed, id) ∈ s.recentlyUsedStore := by
  cases hm : s.metaStore id with
  | none =>
    rw [hm] at hs
    cases hs
  | some m =>
    rw [hm] at hs
    exact h.listed _ ⟨m, hm, hs, h.unpinned m hm, rfl⟩

/-! Entries of other blocks -/

theorem putMain (h : Pinned id s s') (ser : Bytes) :
    Pinned id (s.putMain id' ser) (s'.putMain id' ser) where
  main := by
    show Function.update s'.mainStore _ _ = Function.update s.mainStore _ _
    rw [h.main]
  expiry := h.expiry
  metas := h.metas
  unpinned := h.unpinned
  listed := h.listed
  lru := h.lru

theorem deleteMain (h : Pinned id s s') : Pinned id (s.deleteMain id') (s'.deleteMain id') where
  main := by
    show Function.update s'.mainStore _ _ = Function.update s.mainStore _ _
    rw [h.main]
  expiry := h.expiry
  metas := h.metas
  unpinned := h.unpinned
  listed := h.listed
  lru := h.lru

theorem putExpiry (h : Pinned id s s') : Pinned id (s.putExpiry id' t) (s'.putExpiry id' t) where
  main := h.main
  expiry := by
    show insert _ s'.expiryStore = insert _ s.expiryStore
    rw [h.expiry]
  metas := h.metas
  unpinned := h.unpinned
  listed := h.listed
  lru := h.lru

theorem deleteExpiry (h : Pinned id s s') :
    Pinned id (s.deleteExpiry id' t) (s'.deleteExpiry id' t) where
  main := h.main
  expiry := by
    show s'.expiryStore.erase _ = s.expiryStore.erase _
    rw [h.expiry]
  metas := h.metas
  unpinned := h.unpinned
  listed := h.listed
  lru := h.lru

/-- The same change of the meta of another block. -/
theorem update_meta (h : Pinned id s s') (hne : id' ≠ id) (m? : Option BlockMeta) :
    Pinned id { s with metaStore := Function.update s.metaStore id' m? }
      { s' with metaStore := Function.update s'.metaStore id' m? } := by
  have hself : Function.update s.metaStore id' m? id = s.metaStore id :=
    Function.update_of_ne hne.symm ..
  constructor
  · exact h.main
  · exact h.expiry
  · show Function.update s'.metaStore id' m? = _
    dsimp only
    rw [hself, h.metas, Function.update_comm hne]
  · dsimp only
    rw [hself]
    exact h.unpinned
  · dsimp only
    rw [hself]
    exact h.listed
  · dsimp only
    rw [hself]
    exact h.lru

theorem putMeta_of_ne (h : Pinned id s s') (hne : id' ≠ id) :
    Pinned id (s.putMeta id' m) (s'.putMeta id' m) :=
  h.update_meta hne (some m)

theorem deleteMeta_of_ne (h : Pinned id s s') (hne : id' ≠ id) :
    Pinned id (s.deleteMeta id') (s'.deleteMeta id') :=
  h.update_meta hne none

theorem putLru_of_ne (h : Pinned id s s') (hne : id' ≠ id) :
    Pinned id (s.putLru id' t) (s'.putLru id' t) where
  main := h.main
  expiry := h.expiry
  metas := h.metas
  unpinned := h.unpinned
  listed t' ht := mem_putLru.mpr (.inr (h.listed t' ht))
  lru t' id'' := by
    show _ ↔ _ ∧ ¬ (id'' = id ∧ Listed (s.metaStore id) t')
    rw [mem_putLru, mem_putLru, h.lru]
    constructor
    · rintro (⟨rfl, rfl⟩ | ⟨hmem, hnot⟩)
      · exact ⟨.inl ⟨rfl, rfl⟩, fun heq => hne heq.1⟩
      · exact ⟨.inr hmem, hnot⟩
    · rintro ⟨heq | hmem, hnot⟩
      · exact .inl heq
      · exact .inr ⟨hmem, hnot⟩

theorem deleteLru_of_ne (h : Pinned id s s') (hne : id' ≠ id) :
    Pinned id (s.deleteLru id' t) (s'.deleteLru id' t) where
  main := h.main
  expiry := h.expiry
  metas := h.metas
  unpinned := h.unpinned
  listed t' ht := mem_deleteLru.mpr ⟨fun heq => hne heq.2.symm, h.listed t' ht⟩
  lru t' id'' := by
    show _ ↔ _ ∧ ¬ (id'' = id ∧ Listed (s.metaStore id) t')
    rw [mem_deleteLru, mem_deleteLru, h.lru, and_assoc]

end Pinned

/-! ## Transactions on other blocks -/

/-- Both transactions panic alike, or both are committed and the tables stay beside each other. -/
inductive Alike (id : BlockId) : Except Panic LmdbRepoStore → Except Panic LmdbRepoStore → Prop
  | error (p : Panic) : Alike id (.error p) (.error p)
  | ok {s s' : LmdbRepoStore} (h : Pinned id s s') : Alike id (.ok s) (.ok s')

namespace Alike

variable {x x' : Except Panic LmdbRepoStore}

theorem bind {f f' : LmdbRepoStore → Except Panic LmdbRepoStore} (hx : Alike id x x')
    (hf : ∀ s s', x = .ok s → x' = .ok s' → Pinned id s s' → Alike id (f s) (f' s')) :
    Alike id (x >>= f) (x' >>= f') := by
  cases hx with
  | error p => exact .error p
  | ok h => exact hf _ _ rfl rfl h

/-- A write transaction with the same value. -/
theorem write {α : Type} {txn txn' : LmdbRepoStore → Except Panic (α × LmdbRepoStore)} {a : α}
    (f : α → Reply) (h : Alike id x x') (hs : Pinned id s s')
    (htxn : txn s = x >>= fun t => pure (a, t)) (htxn' : txn' s' = x' >>= fun t => pure (a, t)) :
    Reply.of f (write txn' s') = Reply.of f (write txn s) ∧
      Pinned id (stateAfter (write txn s)) (stateAfter (write txn' s')) := by
  unfold LmdbRepoStore.write
  rw [htxn, htxn']
  cases h with
  | error p => exact ⟨rfl, hs⟩
  | ok h => exact ⟨rfl, h⟩

end Alike

namespace Pinned

theorem removeFromLru (h : Pinned id s s') (hne : id' ≠ id) (t : Timestamp) :
    Alike id (removeFromLru id' t s) (removeFromLru id' t s') := by
  unfold LmdbRepoStore.removeFromLru
  by_cases hmem : (t, id') ∈ s.recentlyUsedStore
  · rw [if_pos hmem, if_pos ((h.mem_lru_of_ne hne).mpr hmem)]
    exact .ok (h.deleteLru_of_ne hne)
  · rw [if_neg hmem, if_neg (fun hmem' => hmem ((h.mem_lru_of_ne hne).mp hmem'))]
    exact .error _

theorem addToLru (h : Pinned id s s') (hne : id' ≠ id)
    (hacc : appendDup (s.recentlyUsedStore.values t) id' = true)
    (hacc' : appendDup (s'.recentlyUsedStore.values t) id' = true) :
    Alike id (addToLru appendDup id' t s) (addToLru appendDup id' t s') := by
  rw [addToLru_ok.mpr ⟨hacc, rfl⟩, addToLru_ok.mpr ⟨hacc', rfl⟩]
  exact .ok (h.putLru_of_ne hne)

theorem recordUse_of_ne (h : Pinned id s s') (hne : id' ≠ id)
    (hacc : m.pin = false →
      appendDup ((s.deleteLru id' m.lastUsed).recentlyUsedStore.values now) id' = true)
    (hacc' : m.pin = false →
      appendDup ((s'.deleteLru id' m.lastUsed).recentlyUsedStore.values now) id' = true) :
    Alike id (recordUse appendDup now id' m s) (recordUse appendDup now id' m s') := by
  unfold recordUse
  refine .bind ?_ fun s₁ s₁' _ _ h₁ => .ok (h₁.putMeta_of_ne hne)
  cases hp : m.pin with
  | true => exact .ok h
  | false =>
    refine (h.removeFromLru hne _).bind fun s₁ s₁' hrun hrun' h₁ => ?_
    obtain ⟨-, rfl⟩ := removeFromLru_ok.mp hrun
    obtain ⟨-, rfl⟩ := removeFromLru_ok.mp hrun'
    exact h₁.addToLru hne (hacc hp) (hacc' hp)

theorem setPinTxn_of_ne (h : Pinned id s s') (hne : id' ≠ id) {add : Bool}
    (hacc : ∀ m, s.metaStore id' = some m → m.pin = true → m.synced = true → add = false →
      appendDup (s.recentlyUsedStore.values m.lastUsed) id' = true)
    (hacc' : ∀ m, s.metaStore id' = some m → m.pin = true → m.synced = true → add = false →
      appendDup (s'.recentlyUsedStore.values m.lastUsed) id' = true) :
    Alike id (setPinTxn appendDup id' add s) (setPinTxn appendDup id' add s') := by
  unfold setPinTxn
  rw [h.meta_of_ne hne]
  cases hm : s.metaStore id' with
  | none =>
    cases add with
    | true => exact .ok (h.putMeta_of_ne hne)
    | false => exact .ok h
  | some m =>
    dsimp only
    split
    · exact .ok h
    · rename_i hpin
      refine .bind ?_ fun s₁ s₁' _ _ h₁ => .ok (h₁.putMeta_of_ne hne)
      cases hs : m.synced with
      | false => exact .ok h
      | true =>
        cases add with
        | true => exact h.removeFromLru hne _
        | false =>
          have hp : m.pin = true := by simpa using hpin
          exact h.addToLru hne (hacc m hm hp hs rfl) (hacc' m hm hp hs rfl)

theorem hasBeenSyncedTxn_of_ne (h : Pinned id s s') (hne : id' ≠ id)
    (hacc : (∀ m, s.metaStore id' = some m → m.pin = false ∧ m.synced = false) →
      appendDup (s.recentlyUsedStore.values now) id' = true)
    (hacc' : (∀ m, s.metaStore id' = some m → m.pin = false ∧ m.synced = false) →
      appendDup (s'.recentlyUsedStore.values now) id' = true) :
    Alike id (hasBeenSyncedTxn appendDup id' now s) (hasBeenSyncedTxn appendDup id' now s') := by
  unfold hasBeenSyncedTxn
  rw [h.meta_of_ne hne]
  cases hm : s.metaStore id' with
  | none =>
    have hfiles : ∀ m, s.metaStore id' = some m → m.pin = false ∧ m.synced = false := by
      rw [hm]
      rintro _ ⟨⟩
    exact (h.addToLru hne (hacc hfiles) (hacc' hfiles)).bind
      fun s₁ s₁' _ _ h₁ => .ok (h₁.putMeta_of_ne hne)
  | some m =>
    dsimp only
    cases hs : m.synced with
    | true => exact .ok h
    | false =>
      refine .bind ?_ fun s₁ s₁' _ _ h₁ => .ok (h₁.putMeta_of_ne hne)
      cases hp : m.pin with
      | true => exact .ok h
      | false =>
        have hfiles : ∀ m, s.metaStore id' = some m → m.pin = false ∧ m.synced = false := by
          rw [hm]
          rintro _ ⟨⟩
          exact ⟨hp, hs⟩
        exact h.addToLru hne (hacc hfiles) (hacc' hfiles)

theorem delTxn_of_ne (h : Pinned id s s') (hne : id' ≠ id) (block : Block) :
    Alike id (delTxn id' block s) (delTxn id' block s') := by
  unfold delTxn
  rw [h.meta_of_ne hne]
  refine .bind ?_ fun s₁ s₁' _ _ h₁ => ?_
  · cases s.metaStore id' with
    | none => exact .ok h
    | some m =>
      refine .bind ?_ fun s₁ s₁' _ _ h₁ => .ok (h₁.deleteMeta_of_ne hne)
      split
      · exact h.removeFromLru hne _
      · exact .ok h
  · cases block.expiry with
    | none => exact .ok h₁.deleteMain
    | some e =>
      dsimp only
      have heq : (s₁'.deleteMain id').expiryStore = (s₁.deleteMain id').expiryStore := h₁.expiry
      rw [heq]
      split
      · exact .ok h₁.deleteMain.deleteExpiry
      · exact .error _

theorem putTxn (h : Pinned id s s') (block : Block) :
    Pinned id (putTxn P block s) (putTxn P block s') := by
  unfold LmdbRepoStore.putTxn
  cases block.expiry with
  | none => exact h.putMain _
  | some e => exact (h.putMain _).putExpiry

end Pinned

/-! ## Transactions on the pinned block -/

/-- What LMDB documents of `APPEND_DUP`: a value that the key has already is rejected. -/
def RejectsPresent (appendDup : Finset BlockId → BlockId → Bool) : Prop :=
  ∀ dups d, d ∈ dups → appendDup dups d = false

theorem appendAfter_rejectsPresent : RejectsPresent appendAfter := by
  intro dups d hd
  exact decide_eq_false fun h => lt_irrefl d (h d hd)

theorem RejectsPresent.notMem (hdup : RejectsPresent appendDup)
    (hacc : appendDup (s.recentlyUsedStore.values t) id = true) :
    (t, id) ∉ s.recentlyUsedStore := by
  intro hmem
  rw [hdup _ _ (MultiMap.mem_values.mpr hmem)] at hacc
  cases hacc

/-- A block that has been synced is not synced again. -/
theorem hasBeenSyncedTxn_synced (hm : s.metaStore id = some m) (hs : m.synced = true) :
    hasBeenSyncedTxn appendDup id now s = .ok s := by
  unfold hasBeenSyncedTxn
  rw [hm]
  exact if_pos hs

namespace Pinned

theorem lru_of_not_listed (h : Pinned id s s') (hnot : ∀ t, ¬ Listed (s.metaStore id) t) :
    (t, id') ∈ s'.recentlyUsedStore ↔ (t, id') ∈ s.recentlyUsedStore := by
  rw [h.lru]
  exact and_iff_left fun heq => hnot t heq.2

/-- Without its old entry, the block is filed on one side only. -/
theorem file {s₀ : LmdbRepoStore} {m₀ : BlockMeta} (hmain : s'.mainStore = s₀.mainStore)
    (hexpiry : s'.expiryStore = s₀.expiryStore)
    (hmetas : s'.metaStore = Function.update s₀.metaStore id (some m₀))
    (hlru : ∀ t id', (t, id') ∈ s'.recentlyUsedStore ↔ (t, id') ∈ s₀.recentlyUsedStore)
    (hs : m.synced = true) (hp : m.pin = false)
    (hnew : (m.lastUsed, id) ∉ s₀.recentlyUsedStore) :
    Pinned id ((s₀.putLru id m.lastUsed).putMeta id m) (s'.putMeta id { m with pin := true }) := by
  have hmeta : ((s₀.putLru id m.lastUsed).putMeta id m).metaStore id = some m := putMeta_self m
  constructor
  · exact hmain
  · exact hexpiry
  · rw [hmeta]
    show Function.update s'.metaStore id _ = Function.update (Function.update _ _ _) _ _
    rw [hmetas, Function.update_idem, Function.update_idem]
    rfl
  · rw [hmeta]
    rintro _ ⟨⟩
    exact hp
  · rw [hmeta]
    intro t ht
    exact mem_putLru.mpr (.inl ⟨(listed_iff hs hp).mp ht, rfl⟩)
  · intro t id'
    rw [hmeta, listed_iff hs hp]
    show (t, id') ∈ s'.recentlyUsedStore ↔ (t, id') ∈ (s₀.putLru _ _).recentlyUsedStore ∧ _
    rw [mem_putLru, hlru]
    constructor
    · intro hmem
      refine ⟨.inr hmem, ?_⟩
      rintro ⟨rfl, rfl⟩
      exact hnew hmem
    · rintro ⟨⟨ht, hid⟩ | hmem, hnot⟩
      · exact absurd ⟨hid, ht⟩ hnot
      · exact hmem

theorem recordUse_self (hdup : RejectsPresent appendDup) (h : Pinned id s s')
    (hm : s.metaStore id = some m) (hs : m.synced = true)
    (hacc : appendDup ((s.deleteLru id m.lastUsed).recentlyUsedStore.values now) id = true) :
    Alike id (recordUse appendDup now id m s)
      (recordUse appendDup now id { m with pin := true } s') := by
  have hp := h.unpinned m hm
  have hmem : (m.lastUsed, id) ∈ s.recentlyUsedStore := h.listed _ ⟨m, hm, hs, hp, rfl⟩
  have hrun : recordUse appendDup now id m s =
      .ok (((s.deleteLru id m.lastUsed).putLru id now).putMeta id { m with lastUsed := now }) := by
    unfold recordUse
    rw [hp, removeFromLru_ok.mpr ⟨hmem, rfl⟩]
    refine bind_eq_ok.mpr ⟨_, ?_, rfl⟩
    exact bind_eq_ok.mpr ⟨_, rfl, addToLru_ok.mpr ⟨hacc, rfl⟩⟩
  rw [hrun]
  refine .ok (file (m := { m with lastUsed := now }) h.main h.expiry h.metas (fun t id' => ?_) hs hp
    (hdup.notMem hacc))
  rw [h.lru, mem_deleteLru, hm, listed_iff hs hp, and_comm, and_comm (a := id' = id)]

theorem hasBeenSyncedTxn_self (hdup : RejectsPresent appendDup) (h : Pinned id s s')
    (hacc : (∀ m, s.metaStore id = some m → m.pin = false ∧ m.synced = false) →
      appendDup (s.recentlyUsedStore.values now) id = true) :
    Alike id (hasBeenSyncedTxn appendDup id now s) (hasBeenSyncedTxn appendDup id now s') := by
  have hself := h.meta_self
  cases hm : s.metaStore id with
  | none =>
    have hacc := hacc (by rw [hm]; rintro _ ⟨⟩)
    have hnot : ∀ t, ¬ Listed (s.metaStore id) t := by
      rw [hm]
      rintro t ⟨_, ⟨⟩, -⟩
    have hrun : hasBeenSyncedTxn appendDup id now s =
        .ok ((s.putLru id now).putMeta id ⟨false, now, true⟩) := by
      unfold hasBeenSyncedTxn
      rw [hm]
      exact bind_eq_ok.mpr ⟨_, addToLru_ok.mpr ⟨hacc, rfl⟩, rfl⟩
    have hrun' : hasBeenSyncedTxn appendDup id now s' = .ok (s'.putMeta id ⟨true, now, true⟩) := by
      unfold hasBeenSyncedTxn
      rw [hself, hm]
      rfl
    rw [hrun, hrun']
    exact .ok (file (m := ⟨false, now, true⟩) h.main h.expiry h.metas
      (fun _ _ => h.lru_of_not_listed hnot) rfl rfl (hdup.notMem hacc))
  | some m =>
    have hp := h.unpinned m hm
    rw [hm] at hself
    cases hs : m.synced with
    | true =>
      rw [hasBeenSyncedTxn_synced hm hs, hasBeenSyncedTxn_synced hself hs]
      exact .ok h
    | false =>
      have hacc := hacc (by rw [hm]; rintro _ ⟨⟩; exact ⟨hp, hs⟩)
      have hnot : ∀ t, ¬ Listed (s.metaStore id) t := by
        rw [hm]
        exact not_listed_of_unsynced hs
      have hrun : hasBeenSyncedTxn appendDup id now s =
          .ok ((s.putLru id now).putMeta id { m with synced := true, lastUsed := now }) := by
        unfold hasBeenSyncedTxn
        simp only [hm, hs, hp, Bool.false_eq_true, if_false]
        exact bind_eq_ok.mpr ⟨_, addToLru_ok.mpr ⟨hacc, rfl⟩, rfl⟩
      have hrun' : hasBeenSyncedTxn appendDup id now s' =
          .ok (s'.putMeta id ⟨true, now, true⟩) := by
        unfold hasBeenSyncedTxn
        rw [hself]
        simp only [pinnedMeta, Option.elim_some, hs, Bool.false_eq_true, if_false]
        rfl
      rw [hrun, hrun']
      exact .ok (file (m := { m with synced := true, lastUsed := now }) h.main h.expiry h.metas
        (fun _ _ => h.lru_of_not_listed hnot) rfl hp (hdup.notMem hacc))

end Pinned

/-! ## Calls -/

/-- The calls between `pin` and `unpin` of `id`. -/
def Op.InBracket (id : BlockId) : Op → Prop
  | .put _ | .get _ _ | .hasBeenSynced _ _ _ => True
  | .del id' | .setPin id' _ => id' ≠ id
  | .removeExpired _ | .removeLeastUsed _ => False

/-- The write transaction of `get`, where it makes one. -/
def recordGet (appendDup : Finset BlockId → BlockId → Bool) (now : Timestamp) (id : BlockId)
    (s : LmdbRepoStore) : Except Panic LmdbRepoStore :=
  match s.useToRecord id with
  | some m => recordUse appendDup now id m s
  | none => .ok s

theorem get_eq_recordGet :
    LmdbRepoStore.get P appendDup now id s =
      match s.mainStore id with
      | none => .ok (.error .notFound) s
      | some ser =>
        match recordGet appendDup now id s with
        | .error p => .error p s
        | .ok s' =>
          match checkBlock P id ser with
          | .error p => .error p s'
          | .ok res => .ok res s' :=
  rfl

namespace Pinned

theorem useToRecord_of_ne (h : Pinned id s s') (hne : id' ≠ id) :
    s'.useToRecord id' = s.useToRecord id' := by
  unfold useToRecord
  rw [h.main, h.meta_of_ne hne]

theorem useToRecord_self (h : Pinned id s s') :
    s'.useToRecord id = (s.useToRecord id).map fun m => { m with pin := true } := by
  unfold useToRecord
  rw [h.main, h.meta_self]
  cases s.mainStore id with
  | none => rfl
  | some ser =>
    cases s.metaStore id with
    | none => rfl
    | some m => cases hs : m.synced <;> simp [pinnedMeta, Option.filter, hs]

/-- `get` reads the same block, and what it records is alike. -/
theorem get_of_alike (h : Pinned id s s')
    (halike : Alike id (recordGet appendDup now id' s) (recordGet appendDup now id' s')) :
    reply P appendDup (.get now id') s' = reply P appendDup (.get now id') s ∧
      Pinned id (exec P appendDup (.get now id') s) (exec P appendDup (.get now id') s') := by
  show Reply.of .get (LmdbRepoStore.get P appendDup now id' s') =
      Reply.of .get (LmdbRepoStore.get P appendDup now id' s) ∧
    Pinned id (stateAfter (LmdbRepoStore.get P appendDup now id' s))
      (stateAfter (LmdbRepoStore.get P appendDup now id' s'))
  rw [get_eq_recordGet, get_eq_recordGet, h.main]
  cases s.mainStore id' with
  | none => exact ⟨rfl, h⟩
  | some ser =>
    dsimp only
    generalize recordGet appendDup now id' s = x at halike
    generalize recordGet appendDup now id' s' = x' at halike
    cases halike with
    | error p => exact ⟨rfl, h⟩
    | ok halike =>
      dsimp only
      cases checkBlock P id' ser with
      | error p => exact ⟨rfl, halike⟩
      | ok res => exact ⟨rfl, halike⟩

theorem get (hdup : RejectsPresent appendDup) (h : Pinned id s s')
    (hins : (Op.get now id').Inserted appendDup s)
    (hins' : (Op.get now id').Inserted appendDup s') :
    reply P appendDup (.get now id') s' = reply P appendDup (.get now id') s ∧
      Pinned id (exec P appendDup (.get now id') s) (exec P appendDup (.get now id') s') := by
  refine h.get_of_alike ?_
  unfold recordGet
  by_cases hne : id' = id
  · subst hne
    rw [h.useToRecord_self]
    cases hread : s.useToRecord id' with
    | none => exact .ok h
    | some m =>
      obtain ⟨hm, hs⟩ := useToRecord_eq hread
      refine h.recordUse_self hdup hm hs ?_
      have hacc := hins ⟨m, hread, h.unpinned m hm⟩
      unfold Use.listed at hacc
      rw [hm] at hacc
      exact hacc
  · rw [h.useToRecord_of_ne hne]
    cases hread : s.useToRecord id' with
    | none => exact .ok h
    | some m =>
      obtain ⟨hm, hs⟩ := useToRecord_eq hread
      have hread' := hread
      rw [← h.useToRecord_of_ne hne] at hread'
      refine h.recordUse_of_ne hne (fun hp => ?_) fun hp => ?_
      · have hacc := hins ⟨m, hread, hp⟩
        unfold Use.listed at hacc
        rw [hm] at hacc
        exact hacc
      · have hacc := hins' ⟨m, hread', hp⟩
        unfold Use.listed at hacc
        rw [h.meta_of_ne hne, hm] at hacc
        exact hacc

theorem setPin (h : Pinned id s s') (hne : id' ≠ id) {add : Bool}
    (hins : (Op.setPin id' add).Inserted appendDup s)
    (hins' : (Op.setPin id' add).Inserted appendDup s') :
    Alike id (setPinTxn appendDup id' add s) (setPinTxn appendDup id' add s') := by
  refine h.setPinTxn_of_ne hne (fun m hm hp hs hadd => ?_) fun m hm hp hs hadd => ?_
  · subst hadd
    have hacc := hins ⟨m, hm, hp, hs⟩
    unfold Use.listed Use.time at hacc
    rw [hm] at hacc
    exact hacc
  · subst hadd
    rw [← h.meta_of_ne hne] at hm
    have hacc := hins' ⟨m, hm, hp, hs⟩
    unfold Use.listed Use.time at hacc
    rw [hm] at hacc
    exact hacc

/-- What `has_been_synced` files, it files under its own time. -/
theorem listed_hasBeenSynced {when? : Option Timestamp}
    (hfiles : (Use.hasBeenSynced when? now).Files s id) :
    (Use.hasBeenSynced when? now).listed s id =
      s.recentlyUsedStore.values (when?.getD now) := by
  unfold Use.listed Use.time
  cases hm : s.metaStore id with
  | none => rfl
  | some m =>
    have hs := (hfiles m hm).2
    simp [Option.filter, hs]

theorem hasBeenSynced (hdup : RejectsPresent appendDup) (h : Pinned id s s')
    {when? : Option Timestamp} (hins : (Op.hasBeenSynced id' when? now).Inserted appendDup s)
    (hins' : (Op.hasBeenSynced id' when? now).Inserted appendDup s') :
    Alike id (hasBeenSyncedTxn appendDup id' (when?.getD now) s)
      (hasBeenSyncedTxn appendDup id' (when?.getD now) s') := by
  have hacc : (Use.hasBeenSynced when? now).Files s id' →
      appendDup (s.recentlyUsedStore.values (when?.getD now)) id' = true := by
    intro hfiles
    rw [← listed_hasBeenSynced hfiles]
    exact hins hfiles
  by_cases hne : id' = id
  · subst hne
    exact h.hasBeenSyncedTxn_self hdup hacc
  · refine h.hasBeenSyncedTxn_of_ne hne hacc fun hfiles => ?_
    rw [← h.meta_of_ne hne] at hfiles
    rw [← listed_hasBeenSynced hfiles]
    exact hins' hfiles

theorem del (h : Pinned id s s') (hne : id' ≠ id) :
    reply P appendDup (.del id') s' = reply P appendDup (.del id') s ∧
      Pinned id (exec P appendDup (.del id') s) (exec P appendDup (.del id') s') := by
  show Reply.of .del (LmdbRepoStore.del P id' s') = Reply.of .del (LmdbRepoStore.del P id' s) ∧
    Pinned id (stateAfter (LmdbRepoStore.del P id' s)) (stateAfter (LmdbRepoStore.del P id' s'))
  unfold LmdbRepoStore.del
  cases hmain : s.mainStore id' with
  | none =>
    have hmain' : s'.mainStore id' = none := by rw [h.main, hmain]
    refine Alike.write _ (.ok h) h (a := .error .notFound) ?_ ?_
    · simp only [hmain]
      rfl
    · simp only [hmain']
      rfl
  | some slice =>
    have hmain' : s'.mainStore id' = some slice := by rw [h.main, hmain]
    cases hblock : Block.fromSlice P slice with
    | none =>
      unfold write
      simp only [hmain, hmain', hblock]
      exact ⟨rfl, h⟩
    | some block =>
      refine (h.delTxn_of_ne hne block).write _ h (a := .ok (block, slice.length)) ?_ ?_
      · simp only [hmain, hblock]
      · simp only [hmain', hblock]

/-- A call returns the same on both sides, and the tables stay beside each other. -/
theorem exec (hdup : RejectsPresent appendDup) (h : Pinned id s s') {op : Op}
    (hop : op.InBracket id) (hins : op.Inserted appendDup s) (hins' : op.Inserted appendDup s') :
    reply P appendDup op s' = reply P appendDup op s ∧
      Pinned id (exec P appendDup op s) (exec P appendDup op s') := by
  cases op with
  | put block => exact ⟨rfl, h.putTxn block⟩
  | get now id' => exact h.get hdup hins hins'
  | del id' => exact h.del hop
  | setPin id' add => exact (h.setPin hop hins hins').write _ h rfl rfl
  | hasBeenSynced id' when? now => exact (h.hasBeenSynced hdup hins hins').write _ h rfl rfl
  | removeExpired now => exact hop.elim
  | removeLeastUsed size => exact hop.elim

/-- Sequences of calls. -/
theorem run (hdup : RejectsPresent appendDup) (h : Pinned id s s') {ops : List Op}
    (hops : ∀ op ∈ ops, op.InBracket id) (hins : Inserted P appendDup ops s)
    (hins' : Inserted P appendDup ops s') :
    replies P appendDup ops s' = replies P appendDup ops s ∧
      Pinned id (runFrom P appendDup ops s) (runFrom P appendDup ops s') := by
  induction ops generalizing s s' with
  | nil => exact ⟨rfl, h⟩
  | cons op ops ih =>
    rw [List.forall_mem_cons] at hops
    obtain ⟨hreply, hexec⟩ := h.exec (P := P) hdup hops.1 hins.1 hins'.1
    obtain ⟨hreplies, hrun⟩ := ih hexec hops.2 hins.2 hins'.2
    refine ⟨?_, hrun⟩
    unfold replies
    rw [hreply, hreplies]

end Pinned

/-! ## The last use inside -/

section

variable (P : Primitives) (appendDup : Finset BlockId → BlockId → Bool)

/-- The time that the call records for `id`. -/
def Op.recordedFor (id : BlockId) (s : LmdbRepoStore) : Op → Option Timestamp
  | .get now id' => if id' = id ∧ (s.useToRecord id).isSome then some now else none
  | .hasBeenSynced id' when? now =>
    if id' = id ∧ ((s.metaStore id).filter BlockMeta.synced).isNone then some (when?.getD now)
    else none
  | _ => none

/-- The time that is last recorded for `id` by a sequence of calls, or `last` if there is none. -/
def lastRecorded (id : BlockId) : List Op → LmdbRepoStore → Timestamp → Timestamp
  | [], _, last => last
  | op :: ops, s, last =>
    lastRecorded id ops (exec P appendDup op s) ((op.recordedFor id s).getD last)

end

theorem setPinTxn_meta_of_ne {add : Bool} (h : setPinTxn appendDup id' add s = .ok s')
    (hne : id ≠ id') : s'.metaStore id = s.metaStore id := by
  obtain ⟨⟨rfl, -⟩, -⟩ | ⟨-, -, rfl⟩ | ⟨m, -, -, ⟨-, rfl⟩ | ⟨-, -, -, rfl⟩ | ⟨-, -, rfl⟩⟩ :=
    setPinTxn_ok h
  · rfl
  · exact putMeta_of_ne hne _
  · exact putMeta_of_ne hne _
  · exact putMeta_of_ne hne _
  · exact putMeta_of_ne hne _

theorem hasBeenSyncedTxn_meta_of_ne (h : hasBeenSyncedTxn appendDup id' now s = .ok s')
    (hne : id ≠ id') : s'.metaStore id = s.metaStore id := by
  obtain ⟨rfl, -⟩ | ⟨-, rfl⟩ | ⟨m, -, -, ⟨-, rfl⟩ | ⟨-, rfl⟩⟩ := hasBeenSyncedTxn_ok h
  · rfl
  · exact putMeta_of_ne hne _
  · exact putMeta_of_ne hne _
  · exact putMeta_of_ne hne _

/-- The tables after a transaction, whether it was committed or panicked. -/
def committed (x : Except Panic LmdbRepoStore) (s : LmdbRepoStore) : LmdbRepoStore :=
  match x with
  | .ok s' => s'
  | .error _ => s

theorem exec_get : exec P appendDup (.get now id) s =
    committed (recordGet appendDup now id s) s := by
  show stateAfter (LmdbRepoStore.get P appendDup now id s) = _
  rw [get_eq_recordGet]
  cases hmain : s.mainStore id with
  | none =>
    unfold recordGet useToRecord
    rw [hmain]
    rfl
  | some ser =>
    dsimp only
    cases recordGet appendDup now id s with
    | error p => rfl
    | ok s' =>
      dsimp only
      cases checkBlock P id ser <;> rfl

theorem exec_setPin {add : Bool} :
    exec P appendDup (.setPin id add) s = committed (setPinTxn appendDup id add s) s := by
  show stateAfter (write _ s) = _
  unfold write
  dsimp only
  cases setPinTxn appendDup id add s <;> rfl

theorem exec_hasBeenSynced {when? : Option Timestamp} :
    exec P appendDup (.hasBeenSynced id when? now) s =
      committed (hasBeenSyncedTxn appendDup id (when?.getD now) s) s := by
  show stateAfter (write _ s) = _
  unfold write
  dsimp only
  cases hasBeenSyncedTxn appendDup id (when?.getD now) s <;> rfl

theorem exec_del_meta_of_ne (hne : id ≠ id') :
    (exec P appendDup (.del id') s).metaStore id = s.metaStore id := by
  show (stateAfter (LmdbRepoStore.del P id' s)).metaStore id = _
  obtain ⟨slice, s', block, hrun, -, -, htxn⟩ | ⟨e, hrun⟩ | ⟨p, hrun⟩ := del_cases P id' s
  · rw [hrun, stateAfter, delTxn_metaStore htxn, Function.update_of_ne hne]
  · rw [hrun, stateAfter]
  · rw [hrun, stateAfter]

/-- A `get` in the bracket changes the last use of the pinned block to what it records for it. -/
theorem exec_get_lastUsed (hm : s.metaStore id = some m) (hp : m.pin = true) :
    ∃ m', (exec P appendDup (.get now id') s).metaStore id = some m' ∧ m'.pin = true ∧
      m'.lastUsed = ((Op.get now id').recordedFor id s).getD m.lastUsed := by
  rw [exec_get, recordGet]
  cases hread : s.useToRecord id' with
  | none =>
    refine ⟨m, hm, hp, ?_⟩
    rw [Op.recordedFor, if_neg]
    · rfl
    · rintro ⟨rfl, hsome⟩
      rw [hread] at hsome
      cases hsome
  | some m₀ =>
    by_cases hid : id' = id
    · subst hid
      obtain ⟨hm₀, -⟩ := useToRecord_eq hread
      rw [hm] at hm₀
      cases hm₀
      have hrun : recordUse appendDup now id' m s =
          .ok (s.putMeta id' { m with lastUsed := now }) := by
        unfold recordUse
        rw [hp]
        rfl
      refine ⟨{ m with lastUsed := now }, ?_, hp, ?_⟩
      · dsimp only
        rw [hrun, committed, putMeta_self]
      · rw [Op.recordedFor, if_pos ⟨rfl, by rw [hread]; rfl⟩]
        rfl
    · refine ⟨m, ?_, hp, ?_⟩
      · dsimp only
        cases hrun : recordUse appendDup now id' m₀ s with
        | error p => exact hm
        | ok s' =>
          rw [committed, recordUse_metaStore hrun, Function.update_of_ne (Ne.symm hid), hm]
      · rw [Op.recordedFor, if_neg fun h => hid h.1]
        rfl

/-- `has_been_synced` records a use of the pinned block if it was not synced. -/
theorem exec_hasBeenSynced_lastUsed (hm : s.metaStore id = some m) (hp : m.pin = true)
    {when? : Option Timestamp} :
    ∃ m', (exec P appendDup (.hasBeenSynced id' when? now) s).metaStore id = some m' ∧
      m'.pin = true ∧
      m'.lastUsed = ((Op.hasBeenSynced id' when? now).recordedFor id s).getD m.lastUsed := by
  rw [exec_hasBeenSynced]
  by_cases hid : id' = id
  · subst hid
    cases hs : m.synced with
    | true =>
      refine ⟨m, by rw [hasBeenSyncedTxn_synced hm hs, committed, hm], hp, ?_⟩
      rw [Op.recordedFor, if_neg]
      · rfl
      · rintro ⟨-, hnone⟩
        rw [hm] at hnone
        simp [Option.filter, hs] at hnone
    | false =>
      have hrun : hasBeenSyncedTxn appendDup id' (when?.getD now) s =
          .ok (s.putMeta id' { m with synced := true, lastUsed := when?.getD now }) := by
        unfold hasBeenSyncedTxn
        simp only [hm, hs, hp, Bool.false_eq_true, if_false, if_true]
        rfl
      refine ⟨{ m with synced := true, lastUsed := when?.getD now }, ?_, hp, ?_⟩
      · rw [hrun, committed, putMeta_self]
      · rw [Op.recordedFor, if_pos]
        · rfl
        · rw [hm]
          simp [Option.filter, hs]
  · refine ⟨m, ?_, hp, ?_⟩
    · cases hrun : hasBeenSyncedTxn appendDup id' (when?.getD now) s with
      | error p => exact hm
      | ok s' => rw [committed, hasBeenSyncedTxn_meta_of_ne hrun (Ne.symm hid), hm]
    · rw [Op.recordedFor, if_neg fun h => hid h.1]
      rfl

variable (P appendDup) in
/-- A call in the bracket changes the last use of the pinned block to what it records for it. -/
theorem exec_lastUsed (hm : s.metaStore id = some m) (hp : m.pin = true) {op : Op}
    (hop : op.InBracket id) :
    ∃ m', (exec P appendDup op s).metaStore id = some m' ∧ m'.pin = true ∧
      m'.lastUsed = (op.recordedFor id s).getD m.lastUsed := by
  cases op with
  | put block =>
    refine ⟨m, ?_, hp, rfl⟩
    show (putTxn P block s).metaStore id = some m
    rw [putTxn_metaStore, hm]
  | get now id' => exact exec_get_lastUsed hm hp
  | del id' => exact ⟨m, by rw [exec_del_meta_of_ne hop.symm, hm], hp, rfl⟩
  | setPin id' add =>
    refine ⟨m, ?_, hp, rfl⟩
    rw [exec_setPin]
    cases hrun : setPinTxn appendDup id' add s with
    | error p => exact hm
    | ok s' => rw [committed, setPinTxn_meta_of_ne hrun hop.symm, hm]
  | hasBeenSynced id' when? now => exact exec_hasBeenSynced_lastUsed hm hp
  | removeExpired now => exact hop.elim
  | removeLeastUsed size => exact hop.elim

variable (P appendDup) in
/-- The last use of the pinned block after a sequence of calls. -/
theorem runFrom_lastUsed (hm : s.metaStore id = some m) (hp : m.pin = true) {ops : List Op}
    (hops : ∀ op ∈ ops, op.InBracket id) :
    ∃ m', (runFrom P appendDup ops s).metaStore id = some m' ∧
      m'.lastUsed = lastRecorded P appendDup id ops s m.lastUsed := by
  induction ops generalizing s m with
  | nil => exact ⟨m, hm, rfl⟩
  | cons op ops ih =>
    rw [List.forall_mem_cons] at hops
    obtain ⟨m₁, hm₁, hp₁, hlast⟩ := exec_lastUsed P appendDup hm hp hops.1
    obtain ⟨m', hm', hlast'⟩ := ih hm₁ hp₁ hops.2
    exact ⟨m', hm', by rw [lastRecorded, ← hlast, hlast']⟩

/-! ## The bracket -/

/-- The calls between `pin` and `unpin`. -/
def bracket (id : BlockId) (ops : List Op) : List Op :=
  .setPin id true :: (ops ++ [.setPin id false])

/-- The same tables, apart from a neutral meta of `id` where there was none. -/
structure SameTables (id : BlockId) (s s' : LmdbRepoStore) : Prop where
  main : s'.mainStore = s.mainStore
  expiry : s'.expiryStore = s.expiryStore
  lru : s'.recentlyUsedStore = s.recentlyUsedStore
  metas : s'.metaStore = s.metaStore ∨ s.metaStore id = none ∧
    s'.metaStore = Function.update s.metaStore id (some ⟨false, 0, false⟩)

variable (appendDup) in
/-- `pin` takes the entry of the block out of the LRU list. -/
theorem exists_pinned (h : LruFits s) (hunpinned : ∀ m, s.metaStore id = some m → m.pin = false) :
    ∃ s', setPinTxn appendDup id true s = .ok s' ∧ Pinned id s s' := by
  cases hm : s.metaStore id with
  | none =>
    refine ⟨s.putMeta id ⟨true, 0, false⟩, ?_, rfl, rfl, ?_, hunpinned, (h id).listed, ?_⟩
    · unfold setPinTxn
      rw [hm]
      rfl
    · rw [hm]
      rfl
    · intro t id'
      refine (and_iff_left ?_).symm
      rw [hm]
      rintro ⟨-, _, ⟨⟩, -⟩
  | some m =>
    have hp := hunpinned m hm
    cases hs : m.synced with
    | false =>
      refine ⟨s.putMeta id { m with pin := true }, ?_, rfl, rfl, ?_, hunpinned, (h id).listed, ?_⟩
      · unfold setPinTxn
        simp only [hm, hp, hs, Bool.true_eq_false, if_false, Bool.not_false, if_true]
        rfl
      · rw [hm]
        rfl
      · intro t id'
        refine (and_iff_left ?_).symm
        rw [hm]
        exact fun hl => not_listed_of_unsynced hs t hl.2
    | true =>
      have hmem := h.mem hm hs hp
      refine ⟨(s.deleteLru id m.lastUsed).putMeta id { m with pin := true }, ?_, rfl, rfl, ?_,
        hunpinned, (h id).listed, ?_⟩
      · unfold setPinTxn
        simp only [hm, hp, hs, Bool.true_eq_false, if_false, Bool.not_true, Bool.false_eq_true,
          if_true]
        exact bind_eq_ok.mpr ⟨_, removeFromLru_ok.mpr ⟨hmem, rfl⟩, rfl⟩
      · rw [hm]
        rfl
      · intro t id'
        show _ ∈ (s.deleteLru id m.lastUsed).recentlyUsedStore ↔ _
        rw [mem_deleteLru, hm, listed_iff hs hp, and_comm, and_comm (a := id' = id)]

/-- `unpin` files the block again. -/
theorem Pinned.unpin (h : Pinned id s s')
    (hins : (Op.setPin id false).Inserted appendDup s') :
    ∃ s₁, setPinTxn appendDup id false s' = .ok s₁ ∧ SameTables id s s₁ ∧
      s₁.metaStore id = some { pinnedMeta (s.metaStore id) with pin := false } := by
  have hself := h.meta_self
  have hpin := pinnedMeta_pin (s.metaStore id)
  have hmetas : Function.update s'.metaStore id
        (some { pinnedMeta (s.metaStore id) with pin := false }) = s.metaStore ∨
      s.metaStore id = none ∧
        Function.update s'.metaStore id
            (some { pinnedMeta (s.metaStore id) with pin := false }) =
          Function.update s.metaStore id (some ⟨false, 0, false⟩) := by
    rw [h.metas, Function.update_idem]
    cases hm : s.metaStore id with
    | none => exact .inr ⟨rfl, rfl⟩
    | some m =>
      have hp := h.unpinned m hm
      refine .inl (Function.update_eq_self_iff.mpr ?_)
      rw [hm, pinnedMeta, Option.elim_some, ← hp]
  cases hs : (pinnedMeta (s.metaStore id)).synced with
  | false =>
    refine ⟨s'.putMeta id { pinnedMeta (s.metaStore id) with pin := false }, ?_,
      ⟨h.main, h.expiry, ?_, hmetas⟩, putMeta_self _⟩
    · unfold setPinTxn
      simp only [hself, hpin, hs, Bool.false_eq_true, if_false, Bool.not_false, if_true]
      rfl
    · ext ⟨t, id'⟩
      refine h.lru_of_not_listed ?_
      cases hm : s.metaStore id with
      | none =>
        rintro t ⟨_, ⟨⟩, -⟩
      | some m =>
        rw [hm] at hs
        exact not_listed_of_unsynced hs
  | true =>
    have hacc := hins ⟨_, hself, hpin, hs⟩
    unfold Use.listed Use.time at hacc
    rw [hself] at hacc
    refine ⟨(s'.putLru id (pinnedMeta (s.metaStore id)).lastUsed).putMeta id
      { pinnedMeta (s.metaStore id) with pin := false }, ?_,
      ⟨h.main, h.expiry, ?_, hmetas⟩, putMeta_self _⟩
    · unfold setPinTxn
      simp only [hself, hpin, hs, Bool.false_eq_true, if_false, Bool.not_true]
      exact bind_eq_ok.mpr ⟨_, addToLru_ok.mpr ⟨hacc, rfl⟩, rfl⟩
    · cases hm : s.metaStore id with
      | none =>
        rw [hm] at hs
        cases hs
      | some m =>
        rw [hm] at hs
        have hs : m.synced = true := hs
        have hp := h.unpinned m hm
        ext ⟨t, id'⟩
        show (t, id') ∈ (s'.putLru id m.lastUsed).recentlyUsedStore ↔ _
        rw [mem_putLru, h.lru, hm, listed_iff hs hp]
        constructor
        · rintro (⟨rfl, rfl⟩ | ⟨hmem, -⟩)
          · exact h.listed _ ⟨m, hm, hs, hp, rfl⟩
          · exact hmem
        · intro hmem
          by_cases heq : t = m.lastUsed ∧ id' = id
          · exact .inl heq
          · exact .inr ⟨hmem, fun h => heq h.symm⟩

theorem runFrom_append (ops ops' : List Op) (s : LmdbRepoStore) :
    runFrom P appendDup (ops ++ ops') s = runFrom P appendDup ops' (runFrom P appendDup ops s) :=
  List.foldl_append

theorem replies_append (ops ops' : List Op) (s : LmdbRepoStore) :
    replies P appendDup (ops ++ ops') s =
      replies P appendDup ops s ++ replies P appendDup ops' (runFrom P appendDup ops s) := by
  induction ops generalizing s with
  | nil => rfl
  | cons op ops ih => exact congrArg (_ :: ·) (ih _)

theorem inserted_append {ops ops' : List Op} :
    Inserted P appendDup (ops ++ ops') s ↔
      Inserted P appendDup ops s ∧ Inserted P appendDup ops' (runFrom P appendDup ops s) := by
  induction ops generalizing s with
  | nil => exact (and_iff_right trivial).symm
  | cons op ops ih => exact (and_congr_right fun _ => ih).trans and_assoc.symm

/-- A `set_pin` whose transaction is committed. -/
theorem setPin_ok {add : Bool} (h : setPinTxn appendDup id add s = .ok s') :
    reply P appendDup (.setPin id add) s = .setPin (.ok ()) ∧
      exec P appendDup (.setPin id add) s = s' := by
  constructor
  · show Reply.of .setPin (write _ s) = _
    unfold write
    dsimp only
    rw [h]
    rfl
  · rw [exec_setPin, h, committed]

/-- Calls in a bracket return what they return without it, and the tables in the end are the same
but for a neutral meta. The entry of the block carries its last use, recorded inside the bracket or
before. The LRU insertions of both runs are assumed to succeed. -/
theorem bracket_invisible (hdup : RejectsPresent appendDup) {past ops : List Op} {id : BlockId}
    (hunpinned : ∀ m, (run P appendDup past).metaStore id = some m → m.pin = false)
    (hops : ∀ op ∈ ops, op.InBracket id)
    (hins : Inserted P appendDup ops (run P appendDup past))
    (hins' : Inserted P appendDup (bracket id ops) (run P appendDup past)) :
    let s := run P appendDup past
    let s' := runFrom P appendDup (bracket id ops) s
    replies P appendDup (bracket id ops) s =
        .setPin (.ok ()) :: (replies P appendDup ops s ++ [.setPin (.ok ())]) ∧
      SameTables id (runFrom P appendDup ops s) s' ∧
      ∀ m, s'.metaStore id = some m → m.synced = true →
        m.lastUsed = lastRecorded P appendDup id ops (exec P appendDup (.setPin id true) s)
          (s.lastUse id) ∧
        (m.lastUsed, id) ∈ s'.recentlyUsedStore := by
  intro s s'
  obtain ⟨s₁, hpin, h₁⟩ := exists_pinned appendDup (lruFits_run past) hunpinned
  obtain ⟨hreply₁, hexec₁⟩ := setPin_ok (P := P) hpin
  obtain ⟨-, hins'⟩ := hins'
  rw [hexec₁] at hins'
  obtain ⟨hins', hunpin, -⟩ := inserted_append.mp hins'
  obtain ⟨hreplies, h₂⟩ := h₁.run (P := P) hdup hops hins hins'
  obtain ⟨s₂, hunpin, hsame, hmeta⟩ := h₂.unpin hunpin
  obtain ⟨hreply₂, hexec₂⟩ := setPin_ok (P := P) hunpin
  have hs' : s' = s₂ := by
    show runFrom P appendDup (ops ++ [.setPin id false]) (exec P appendDup (.setPin id true) s) = _
    rw [hexec₁, runFrom_append]
    exact hexec₂
  refine ⟨?_, hs' ▸ hsame, fun m hm hs => ?_⟩
  · show reply P appendDup (.setPin id true) s ::
      replies P appendDup (ops ++ [.setPin id false]) (exec P appendDup (.setPin id true) s) = _
    rw [hreply₁, hexec₁, replies_append, hreplies]
    exact congrArg (_ :: _ ++ [·]) hreply₂
  · rw [hs', hmeta] at hm
    cases hm
    rw [hs', hsame.lru]
    obtain ⟨m', hm', hlast⟩ := runFrom_lastUsed P appendDup h₁.meta_self
      (pinnedMeta_pin _) hops
    rw [h₂.meta_self] at hm'
    cases hm'
    refine ⟨?_, h₂.mem_lru hs⟩
    rw [hexec₁, ← pinnedMeta_lastUsed]
    exact hlast

theorem exists_mem_of_mem_listed {u : Use} {d : BlockId} (hd : d ∈ u.listed s id) :
    ∃ t, (t, d) ∈ s.recentlyUsedStore := by
  unfold Use.listed at hd
  split at hd
  · exact ⟨_, (mem_deleteLru.mp (MultiMap.mem_values.mp hd)).2⟩
  · exact ⟨_, MultiMap.mem_values.mp hd⟩

/-- Without an LRU entry there is nothing that could reject another one. -/
theorem inserted_of_lru_empty (h : s.recentlyUsedStore = ∅) (u : Use) :
    u.Inserted appendAfter s id := by
  refine fun _ => decide_eq_true fun d hd => ?_
  obtain ⟨t, hmem⟩ := exists_mem_of_mem_listed hd
  rw [h] at hmem
  exact absurd hmem (Finset.notMem_empty _)

theorem bracket_invisible_sample :
    let P := reference fun _ _ => false
    let id := sampleBlock.id P
    let s := run P appendAfter [.put sampleBlock, .hasBeenSynced id (some 5) 9]
    SameTables id (runFrom P appendAfter [.get 7 id] s)
      (runFrom P appendAfter (bracket id [.get 7 id]) s) := by
  intro P id s
  have hs : s = _ := run_put_hasBeenSynced P (show sampleBlock.expiry = some 40 from rfl) 5 9
  have hmeta : s.metaStore id = some ⟨false, 5, true⟩ := by rw [hs, putMeta_self]
  have hlru : ∀ t id', (t, id') ∈ s.recentlyUsedStore → t = 5 ∧ id' = id := by
    rw [hs]
    intro t id' hmem
    exact (mem_putLru.mp hmem).resolve_right (Finset.notMem_empty _)
  have hunpinned : ∀ m, s.metaStore id = some m → m.pin = false := by
    rw [hmeta]
    rintro _ ⟨⟩
    rfl
  have hops : ∀ op ∈ [Op.get 7 id], op.InBracket id := by simp [Op.InBracket]
  obtain ⟨s₁, hpin, h₁⟩ := exists_pinned appendAfter (lruFits_run _) hunpinned
  have hmeta₁ : s₁.metaStore id = some ⟨true, 5, true⟩ := by
    rw [h₁.meta_self, hmeta]
    rfl
  have hlru₁ : s₁.recentlyUsedStore = ∅ := by
    refine Finset.eq_empty_of_forall_notMem fun ⟨t, id'⟩ hmem => ?_
    obtain ⟨hmem, hnot⟩ := (h₁.lru t id').mp hmem
    obtain ⟨rfl, rfl⟩ := hlru t id' hmem
    exact hnot ⟨rfl, _, hmeta, rfl, rfl, rfl⟩
  refine (bracket_invisible appendAfter_rejectsPresent hunpinned hops ?_ ?_).2.1
  · refine ⟨fun _ => decide_eq_true fun d hd => ?_, trivial⟩
    unfold Use.listed at hd
    rw [show (run P appendAfter _).metaStore id = _ from hmeta] at hd
    obtain ⟨-, hmem⟩ := mem_deleteLru.mp (MultiMap.mem_values.mp hd)
    obtain ⟨⟨⟩, -⟩ := hlru _ _ hmem
  · have hrun : exec P appendAfter (.get 7 id) s₁ = committed (recordGet appendAfter 7 id s₁) s₁ :=
      exec_get
    have hlru₂ : (exec P appendAfter (.get 7 id) s₁).recentlyUsedStore = ∅ := by
      rw [hrun, recordGet]
      cases hread : s₁.useToRecord id with
      | none => exact hlru₁
      | some m =>
        obtain ⟨hm, -⟩ := useToRecord_eq hread
        rw [hmeta₁] at hm
        cases hm
        exact hlru₁
    refine ⟨trivial, ?_⟩
    rw [(setPin_ok (P := P) hpin).2]
    exact ⟨inserted_of_lru_empty hlru₁ _, inserted_of_lru_empty hlru₂ _, trivial⟩

end LmdbRepoStore

end Lofire
