import Lofire.Lmdb.Runs
import Lofire.Object.Load

/-!
# The block store with a clock

`ClockedStore` is an `LmdbRepoStore` with the clock readings to come, so that programs over the
trait `RepoStore` can run on it. What `get` returns depends on the main store only (`view`). A
program that only reads and returns, returns what it computes from the view (`reading`); where the
tables are sound, no stored block is corrupt and LMDB accepts the entries of the LRU list, it
returns (`returning`).
-/

namespace Lofire

open Lib

structure ClockedStore where
  store : LmdbRepoStore
  clock : Nat → Timestamp

namespace ClockedStore

section

variable (P : Primitives) (appendDup : Finset BlockId → BlockId → Bool)

/-- An operation that does not read the clock. -/
def lift {α : Type} (x : StoreM LmdbRepoStore α) : StoreM ClockedStore α := fun c =>
  match x c.store with
  | .ok a s => .ok a { c with store := s }
  | .error p s => .error p { c with store := s }

/-- `get` takes the next reading of the clock. -/
def get (id : BlockId) : StoreM ClockedStore (Except StorageError Block) := fun c =>
  match LmdbRepoStore.get P appendDup (c.clock 0) id c.store with
  | .ok a s => .ok a ⟨s, fun n => c.clock (n + 1)⟩
  | .error p s => .error p ⟨s, fun n => c.clock (n + 1)⟩

def put (block : Block) : StoreM ClockedStore (Except StorageError BlockId) :=
  lift (LmdbRepoStore.put P block)

def del (id : BlockId) : StoreM ClockedStore (Except StorageError (Block × Nat)) :=
  lift (LmdbRepoStore.del P id)

def pin (id : BlockId) : StoreM ClockedStore (Except StorageError Unit) :=
  lift (LmdbRepoStore.pin appendDup id)

def unpin (id : BlockId) : StoreM ClockedStore (Except StorageError Unit) :=
  lift (LmdbRepoStore.unpin appendDup id)

/-- `impl RepoStore for LmdbRepoStore` -/
def repoStore : RepoStore ClockedStore where
  get := get P appendDup
  put := put P
  del := del P

end

/-- What `get` returns from a main store. -/
def view (P : Primitives) (mainStore : BlockId → Option Bytes) : Object.View := fun id =>
  match mainStore id with
  | none => .error .notFound
  | some blockSer =>
    match Block.fromSlice P blockSer with
    | none => .error .invalidValue
    | some o => .ok o

/-- The tables are correct, and the clock does not read 0. -/
structure Sound (c : ClockedStore) : Prop where
  lru : c.store.LruIndexed
  timed : c.store.Timed
  clock : ∀ n, c.clock n ≠ 0

variable {P : Primitives} {appendDup : Finset BlockId → BlockId → Bool} {c c' : ClockedStore}
  {id : BlockId} {main : BlockId → Option Bytes}

/-! ## `get` -/

theorem checkBlock_ok {ser : Bytes} {r : Except StorageError Block}
    (hmain : main id = some ser) (h : LmdbRepoStore.checkBlock P id ser = .ok r) :
    r = view P main id := by
  unfold LmdbRepoStore.checkBlock at h
  cases hb : Block.fromSlice P ser with
  | none =>
    rw [hb] at h
    cases h
    simp only [view, hmain, hb]
  | some o =>
    simp only [hb] at h
    split at h
    · cases h
    · cases h
      simp only [view, hmain, hb]

theorem recordUse_sound {s s' : LmdbRepoStore} {now : Timestamp} {m : BlockMeta}
    (hread : s.useToRecord id = some m) (h : LmdbRepoStore.recordUse appendDup now id m s = .ok s')
    (hnow : now ≠ 0) (hlru : s.LruIndexed) (htimed : s.Timed) : s'.LruIndexed ∧ s'.Timed := by
  obtain ⟨hm, hsync⟩ := LmdbRepoStore.useToRecord_eq hread
  exact ⟨hlru.recordUse hsync (fun hp => ⟨m, hm, hp⟩) (fun _ => hm) h,
    htimed.recordUse hsync hnow h⟩

/-- A call of `get` that returns either leaves the store as it is or records the use of the
block. -/
theorem get_cases {r : Except StorageError Block} (h : get P appendDup id c = .ok r c') :
    r = view P c.store.mainStore id ∧ c'.clock = (fun n => c.clock (n + 1)) ∧ (c'.store = c.store ∨
      ∃ m, c.store.useToRecord id = some m ∧
        LmdbRepoStore.recordUse appendDup (c.clock 0) id m c.store = .ok c'.store) := by
  unfold get LmdbRepoStore.get at h
  cases hmain : c.store.mainStore id with
  | none =>
    simp only [hmain] at h
    cases h
    exact ⟨by rw [view, hmain], rfl, .inl rfl⟩
  | some ser =>
    simp only [hmain] at h
    cases hread : c.store.useToRecord id with
    | none =>
      simp only [hread] at h
      cases hcheck : LmdbRepoStore.checkBlock P id ser with
      | error p =>
        rw [hcheck] at h
        cases h
      | ok r' =>
        rw [hcheck] at h
        cases h
        exact ⟨checkBlock_ok hmain hcheck, rfl, .inl rfl⟩
    | some m =>
      simp only [hread] at h
      cases hrun : LmdbRepoStore.recordUse appendDup (c.clock 0) id m c.store with
      | error p =>
        rw [hrun] at h
        cases h
      | ok s =>
        simp only [hrun] at h
        cases hcheck : LmdbRepoStore.checkBlock P id ser with
        | error p =>
          rw [hcheck] at h
          cases h
        | ok r' =>
          rw [hcheck] at h
          cases h
          exact ⟨checkBlock_ok hmain hcheck, rfl, .inr ⟨m, rfl, hrun⟩⟩

theorem get_ok {r : Except StorageError Block} (h : get P appendDup id c = .ok r c') :
    r = view P c.store.mainStore id ∧ c'.store.mainStore = c.store.mainStore ∧
      (c.Sound → c'.Sound) := by
  obtain ⟨hr, hclock, hsame | ⟨m, hread, hrun⟩⟩ := get_cases h
  · refine ⟨hr, by rw [hsame], fun hc => ⟨hsame ▸ hc.lru, hsame ▸ hc.timed, fun n => ?_⟩⟩
    rw [hclock]
    exact hc.clock (n + 1)
  · refine ⟨hr, (LmdbRepoStore.recordUse_frame hrun).1, fun hc => ?_⟩
    obtain ⟨hlru, htimed⟩ := recordUse_sound hread hrun (hc.clock 0) hc.lru hc.timed
    refine ⟨hlru, htimed, fun n => ?_⟩
    rw [hclock]
    exact hc.clock (n + 1)

/-- No stored block has another id than the one it is stored under. -/
def Intact (P : Primitives) (main : BlockId → Option Bytes) : Prop :=
  ∀ id ser b, main id = some ser → Block.fromSlice P ser = some b → b.id P = id

theorem checkBlock_intact {ser : Bytes} (hmain : main id = some ser) (h : Intact P main) :
    LmdbRepoStore.checkBlock P id ser = .ok (view P main id) := by
  unfold LmdbRepoStore.checkBlock
  cases hb : Block.fromSlice P ser with
  | none => simp only [view, hmain, hb]
  | some o =>
    dsimp only
    rw [if_neg (not_not.mpr (h id ser o hmain hb))]
    simp only [view, hmain, hb]

/-- A program that returns from the main store `main` returns `a`. -/
def reading (main : BlockId → Option Bytes) : Yields (StoreM ClockedStore) where
  rel {α} x a := ∀ c, c.store.mainStore = main → ∀ (r : α) c', x c = .ok r c' →
    r = a ∧ c'.store.mainStore = main ∧ (c.Sound → c'.Sound)
  pure a := by
    intro c hc r c' h
    cases h
    exact ⟨rfl, hc, fun h => h⟩
  bind := by
    intro α β x a f b hx hf c hc r c' h
    obtain ⟨a', c₁, hrun, h⟩ := StoreM.bind_ok.mp h
    obtain ⟨rfl, hc₁, hsound₁⟩ := hx c hc a' c₁ hrun
    obtain ⟨hr, hc', hsound'⟩ := hf c₁ hc₁ r c' h
    exact ⟨hr, hc', fun hs => hsound' (hsound₁ hs)⟩

theorem get_reading (main : BlockId → Option Bytes) (id : BlockId) :
    (reading main).rel (get P appendDup id) (view P main id) := by
  intro c hc r c' h
  obtain ⟨hr, hmain, hsound⟩ := get_ok h
  rw [hc] at hr hmain
  exact ⟨hr, hmain, hsound⟩

/-- A load that returns has returned what it computes from the view. -/
theorem load_reading (main : BlockId → Option Bytes) (fuel : Nat) (id : ObjectId)
    (key : Option SymKey) :
    (reading main).rel (Object.load P (get P appendDup) fuel id key)
      (Object.loadView P (view P main) id key fuel) :=
  Object.load_yields _ fuel (fun x _ => get_reading main x) key

theorem Intact.putTxn (hP : P.SerdeLaws) {s : LmdbRepoStore} (h : Intact P s.mainStore) {b : Block}
    (hb : b.Valid P) : Intact P (LmdbRepoStore.putTxn P b s).mainStore := by
  intro id ser b' hser hb'
  rw [LmdbRepoStore.putTxn_mainStore] at hser
  by_cases heq : id = b.id P
  · subst heq
    rw [Function.update_self, Option.some.injEq] at hser
    rw [← hser, Block.fromSlice_toVec hP, Option.some.injEq] at hb'
    subst hb'
    exact hb.symm
  · rw [Function.update_of_ne heq] at hser
    exact h id ser b' hser hb'

/-- A program computes `a` and leaves the store `s` as it is. -/
def idle (s : LmdbRepoStore) : Yields (StoreM ClockedStore) where
  rel x a := ∀ clock, ∃ clock', x ⟨s, clock⟩ = .ok a ⟨s, clock'⟩
  pure a clock := ⟨clock, rfl⟩
  bind := by
    intro α β x a f b hx hf clock
    obtain ⟨clock₁, hrun⟩ := hx clock
    obtain ⟨clock', hrun'⟩ := hf clock₁
    exact ⟨clock', StoreM.bind_ok.mpr ⟨a, _, hrun, hrun'⟩⟩

/-- The use of a block that is not synced is not recorded. -/
theorem get_idle {s : LmdbRepoStore} (hmeta : ∀ id m, s.metaStore id = some m → m.synced = false)
    (hintact : Intact P s.mainStore) (id : BlockId) :
    (idle s).rel (get P appendDup id) (view P s.mainStore id) := by
  intro clock
  unfold get LmdbRepoStore.get
  cases hmain : s.mainStore id with
  | none => exact ⟨_, by rw [view, hmain]⟩
  | some ser =>
    have hread : s.useToRecord id = none := by
      cases hread : s.useToRecord id with
      | none => rfl
      | some m =>
        obtain ⟨hm, hsync⟩ := LmdbRepoStore.useToRecord_eq hread
        rw [hmeta id m hm] at hsync
        cases hsync
    simp only [hread, checkBlock_intact hmain hintact]
    exact ⟨_, rfl⟩

theorem load_idle {s : LmdbRepoStore} (hmeta : ∀ id m, s.metaStore id = some m → m.synced = false)
    (hintact : Intact P s.mainStore) (fuel : Nat) (id : ObjectId) (key : Option SymKey) :
    (idle s).rel (Object.load P (get P appendDup) fuel id key)
      (Object.loadView P (view P s.mainStore) id key fuel) :=
  Object.load_yields _ fuel (fun x _ => get_idle hmeta hintact x) key

end ClockedStore

end Lofire
