import Lofire.Lmdb.Clocked

/-!
# A block store as a map of blocks

Of a store on which no block has been recorded as synced, the metas, the expiry list and the LRU
list do not show (`Unsynced`): `put`, `set_pin` and `del` return, and do to the stored blocks what
`BlockMap` says. A pin does nothing to them.
-/

namespace Lofire

open Lib

/-- What a block store is for. -/
abbrev BlockMap := BlockId → Option Block

/-- A block as a store returns it. -/
def Block.stored (b : Block) : Block := { b with id? := none, key := none }

namespace BlockMap

/-- What is found under the ids. -/
def view (m : BlockMap) : Object.View := fun id =>
  match m id with
  | none => .error .notFound
  | some b => .ok b

def put (P : Primitives) (m : BlockMap) (b : Block) : BlockMap :=
  Function.update m (b.id P) (some b.stored)

def without (m : BlockMap) (ids : List BlockId) : BlockMap := fun id =>
  if id ∈ ids then none else m id

variable {m : BlockMap} {id : BlockId} {b : Block}

theorem view_eq_ok : m.view id = .ok b ↔ m id = some b := by
  unfold view
  cases m id <;> simp

theorem without_nil : m.without [] = m := rfl

theorem without_without (ids ids' : List BlockId) :
    (m.without ids).without ids' = m.without (ids' ++ ids) := by
  funext id
  unfold without
  by_cases h : id ∈ ids' <;> simp [h]

theorem without_congr {ids ids' : List BlockId} (h : ∀ id, id ∈ ids ↔ id ∈ ids') :
    m.without ids = m.without ids' := by
  funext id
  exact if_congr (h id) rfl rfl

end BlockMap

namespace LmdbRepoStore

variable {P : Primitives} {B : Set Block} {s s' : LmdbRepoStore} {id : BlockId} {b : Block}

/-- The blocks of a store. -/
def blocks (P : Primitives) (s : LmdbRepoStore) : BlockMap := fun id =>
  (s.mainStore id).bind (Block.fromSlice P)

theorem blocks_congr (h : s'.mainStore = s.mainStore) : s'.blocks P = s.blocks P := by
  unfold blocks
  rw [h]

theorem blocks_putTxn (hP : P.SerdeLaws) (b : Block) :
    (putTxn P b s).blocks P = (s.blocks P).put P b := by
  funext id
  unfold blocks BlockMap.put
  rw [putTxn_mainStore]
  by_cases hid : id = b.id P
  · subst hid
    rw [Function.update_self, Function.update_self]
    exact Block.fromSlice_toVec hP b
  · rw [Function.update_of_ne hid, Function.update_of_ne hid]

theorem blocks_delTxn (h : delTxn id b s = .ok s') : s'.blocks P = (s.blocks P).without [id] := by
  funext id'
  unfold blocks BlockMap.without
  rw [delTxn_mainStore h]
  by_cases hid : id' = id
  · subst hid
    rw [Function.update_self, if_pos (List.mem_singleton_self id')]
    rfl
  · rw [Function.update_of_ne hid, if_neg (by rwa [List.mem_singleton])]

/-- No block is recorded as synced. The stored blocks are of `B`, and the expiry list is correct. -/
structure Unsynced (P : Primitives) (B : Set Block) (s : LmdbRepoStore) : Prop where
  metas : ∀ id m, s.metaStore id = some m → m.synced = false ∧ m.lastUsed = 0
  expiry : ExpiryIndexed P B s

namespace Unsynced

theorem empty : Unsynced P B .empty := ⟨nofun, consistent_empty.expiry⟩

/-- A stored block is one of `B`, without the cached id and the key. -/
theorem stored (h : Unsynced P B s) (hP : P.SerdeLaws) {ser : Bytes}
    (hser : s.mainStore id = some ser) :
    ∃ b ∈ B, b.id P = id ∧ Block.fromSlice P ser = some b.stored := by
  obtain ⟨b, hb, hid, rfl⟩ := h.expiry.main id ser hser
  exact ⟨b, hb, hid, Block.fromSlice_toVec hP b⟩

theorem view_eq (h : Unsynced P B s) (hP : P.SerdeLaws) :
    ClockedStore.view P s.mainStore = (s.blocks P).view := by
  funext id
  unfold ClockedStore.view BlockMap.view blocks
  cases hser : s.mainStore id with
  | none => rfl
  | some ser =>
    obtain ⟨b, -, -, hb⟩ := h.stored hP hser
    dsimp only [Option.bind_some]
    rw [hb]

/-- A stored block has the id that it is stored under. -/
theorem intact (h : Unsynced P B s) (hP : P.SerdeLaws) (hB : ∀ b ∈ B, b.Valid P) :
    ClockedStore.Intact P s.mainStore := by
  intro id ser b' hser hb'
  obtain ⟨b, hb, rfl, hdecoded⟩ := h.stored hP hser
  rw [hdecoded, Option.some.injEq] at hb'
  subst hb'
  exact (hB b hb).symm

theorem blocks_id (h : Unsynced P B s) (hP : P.SerdeLaws) (hB : ∀ b ∈ B, b.Valid P)
    (hb : s.blocks P id = some b) : b.id P = id := by
  obtain ⟨ser, hser, hdecoded⟩ := Option.bind_eq_some_iff.mp hb
  exact h.intact hP hB id ser b hser hdecoded

theorem putTxn (h : Unsynced P B s) (hP : P.SerdeLaws) (hdistinct : IdsDistinct P B)
    (hb : b ∈ B) : Unsynced P B (LmdbRepoStore.putTxn P b s) := by
  refine ⟨fun id m hm => ?_, h.expiry.putTxn hP hdistinct hb⟩
  rw [putTxn_metaStore] at hm
  exact h.metas id m hm

/-- A pin is set without a look at the LRU list. -/
theorem setPinTxn (h : Unsynced P B s) (appendDup : Finset BlockId → BlockId → Bool)
    (id : BlockId) (add : Bool) : ∃ s', LmdbRepoStore.setPinTxn appendDup id add s = .ok s' ∧
      Unsynced P B s' ∧ s'.mainStore = s.mainStore := by
  have hreturns : ∃ s', LmdbRepoStore.setPinTxn appendDup id add s = .ok s' := by
    unfold LmdbRepoStore.setPinTxn
    cases hm : s.metaStore id with
    | none =>
      dsimp only
      split
      · exact ⟨_, rfl⟩
      · exact ⟨_, rfl⟩
    | some m =>
      dsimp only
      split
      · exact ⟨_, rfl⟩
      · rw [(h.metas id m hm).1]
        exact ⟨_, rfl⟩
  obtain ⟨s', hrun⟩ := hreturns
  obtain ⟨hmain, hexpiry⟩ := setPinTxn_frame hrun
  refine ⟨s', hrun, ⟨?_, expiryIndexed_congr hmain hexpiry h.expiry⟩, hmain⟩
  have hput : ∀ m : BlockMeta, m.synced = false ∧ m.lastUsed = 0 →
      ∀ id' m', (s.putMeta id m).metaStore id' = some m' → m'.synced = false ∧ m'.lastUsed = 0 := by
    intro m hm id' m' hm'
    by_cases hid : id' = id
    · subst hid
      rw [putMeta_self, Option.some.injEq] at hm'
      exact hm' ▸ hm
    · rw [putMeta_of_ne hid] at hm'
      exact h.metas id' m' hm'
  obtain ⟨⟨rfl, -⟩, -⟩ | ⟨-, -, rfl⟩ | ⟨m, hm, -, hcase⟩ := setPinTxn_ok hrun
  · exact h.metas
  · exact hput _ ⟨rfl, rfl⟩
  · have hunsynced := h.metas id m hm
    obtain ⟨-, rfl⟩ | ⟨hsynced, -⟩ | ⟨hsynced, -⟩ := hcase
    · exact hput _ hunsynced
    · rw [hunsynced.1] at hsynced
      cases hsynced
    · rw [hunsynced.1] at hsynced
      cases hsynced

/-- A block that is stored is deleted. -/
theorem del (h : Unsynced P B s) (hb : s.blocks P id = some b) : ∃ size s',
    LmdbRepoStore.del P id s = .ok (.ok (b, size)) s' ∧ Unsynced P B s' ∧
      s'.blocks P = (s.blocks P).without [id] := by
  obtain ⟨ser, hser, hdecoded⟩ := Option.bind_eq_some_iff.mp hb
  obtain ⟨s', hrun⟩ : ∃ s', delTxn id b s = .ok s' := by
    refine delTxn_returns (fun m hm hlast => absurd (h.metas id m hm).2 hlast) fun e he => ?_
    exact (h.expiry.expiry e id).mpr ⟨ser, b, hser, hdecoded, he⟩
  refine ⟨ser.length, s', ?_, ⟨fun id' m hm => ?_, h.expiry.delTxn hser hdecoded hrun⟩,
    blocks_delTxn hrun⟩
  · unfold LmdbRepoStore.del write
    simp only [hser, hdecoded, hrun]
    rfl
  · rw [delTxn_metaStore hrun] at hm
    by_cases hid : id' = id
    · subst hid
      rw [Function.update_self] at hm
      cases hm
    · rw [Function.update_of_ne hid] at hm
      exact h.metas id' m hm

/-- A read leaves the store as it is. -/
theorem get_idle (h : Unsynced P B s) (hP : P.SerdeLaws) (hB : ∀ b ∈ B, b.Valid P)
    (appendDup : Finset BlockId → BlockId → Bool) (id : BlockId) :
    (ClockedStore.idle s).rel (ClockedStore.get P appendDup id) ((s.blocks P).view id) := by
  rw [← h.view_eq hP]
  exact ClockedStore.get_idle (fun id m hm => (h.metas id m hm).1) (h.intact hP hB) id

theorem load_idle (h : Unsynced P B s) (hP : P.SerdeLaws) (hB : ∀ b ∈ B, b.Valid P)
    (appendDup : Finset BlockId → BlockId → Bool) (fuel : Nat) (id : ObjectId) :
    (ClockedStore.idle s).rel (Object.load P (ClockedStore.get P appendDup) fuel id none)
      (Object.loadView P (s.blocks P).view id none fuel) :=
  Object.load_yields _ fuel (fun x _ => h.get_idle hP hB appendDup x) none

end Unsynced

end LmdbRepoStore

end Lofire
