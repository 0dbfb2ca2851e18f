import Lofire.Block
import Lofire.Lib.Yields
import Mathlib.Logic.Function.Basic

/-!
# Block store (`lofire/src/store.rs`)

The trait `RepoStore`, its instance `HashMapRepoStore`, and the sizes of stored values.

An operation on a store runs in `StoreM`: it returns a value and the new state, or it panics and
leaves the state reached so far. `RepoStore.Lawful` is what the users of the trait rely on for the
blocks of a set `D`: the store can be viewed as a map, `get` reads the map and leaves it as it is,
and `put` adds a block under its id. A program that only reads a lawful store computes what it
computes from the map (`RepoStore.Lawful.Reads`).
-/

namespace Lofire

inductive StorageError
  | notFound
  | invalidValue
  | backendError
  | serializationError
  deriving DecidableEq

/-- A panic: an `unwrap` of `None` or `Err`, or the check of a stored block in `get`. -/
inductive Panic
  | unwrap
  | corruptionOfData
  deriving DecidableEq

/-- An operation on a store of type `σ`. -/
abbrev StoreM (σ : Type) := EStateM Panic σ

/-- Two operations in a row return if the first returns and the second does from there. -/
theorem StoreM.bind_ok {σ α β : Type} {x : StoreM σ α} {f : α → StoreM σ β} {b : β} {s s'' : σ} :
    (x >>= f) s = .ok b s'' ↔ ∃ a s', x s = .ok a s' ∧ f a s' = .ok b s'' := by
  show EStateM.bind x f s = _ ↔ _
  unfold EStateM.bind
  cases x s with
  | error p s' => simp
  | ok a s' =>
    constructor
    · exact fun h => ⟨a, s', rfl, h⟩
    · rintro ⟨_, _, h, hf⟩
      cases h
      exact hf

/-- The trait `RepoStore`, implemented by `σ`. -/
structure RepoStore (σ : Type) where
  get : BlockId → StoreM σ (Except StorageError Block)
  put : Block → StoreM σ (Except StorageError BlockId)
  del : BlockId → StoreM σ (Except StorageError (Block × Nat))

/-- The store is a map from ids to blocks that returns the block last put under an id. -/
structure RepoStore.Lawful {σ : Type} (P : Primitives) (D : Set BlockBody) (S : RepoStore σ) where
  /-- What holds of the store between two operations. -/
  Inv : σ → Prop
  view : σ → BlockId → Except StorageError Block
  get_view : ∀ id s, Inv s → ∃ s', S.get id s = .ok (view s id) s' ∧ Inv s' ∧ view s' = view s
  put_view : ∀ (b : Block) s, Inv s → b.Valid P → b.toBlockBody ∈ D →
    ∃ s' b', S.put b s = .ok (.ok (b.id P)) s' ∧ Inv s' ∧
      view s' = Function.update (view s) (b.id P) (.ok b') ∧
      b'.toBlockBody = b.toBlockBody ∧ b'.Valid P

namespace RepoStore.Lawful

variable {σ : Type} {P : Primitives} {D : Set BlockBody} {S : RepoStore σ} {α β : Type}

/-- In a state whose view is `v`, the program `x` returns `a` and keeps the view. -/
structure Reads (hS : S.Lawful P D) (v : BlockId → Except StorageError Block) (x : StoreM σ α)
    (a : α) : Prop where
  run : ∀ s, hS.Inv s → hS.view s = v → ∃ s', x s = .ok a s' ∧ hS.Inv s' ∧ hS.view s' = v

variable {hS : S.Lawful P D} {v : BlockId → Except StorageError Block}

theorem Reads.pure (a : α) : hS.Reads v (Pure.pure a) a :=
  ⟨fun s hs hv => ⟨s, rfl, hs, hv⟩⟩

theorem Reads.bind {x : StoreM σ α} {a : α} {f : α → StoreM σ β} {b : β} (hx : hS.Reads v x a)
    (hf : hS.Reads v (f a) b) : hS.Reads v (x >>= f) b := by
  constructor
  intro s hs hv
  obtain ⟨s', hrun, hs', hv'⟩ := hx.run s hs hv
  obtain ⟨s'', hrun', hs'', hv''⟩ := hf.run s' hs' hv'
  exact ⟨s'', StoreM.bind_ok.mpr ⟨a, s', hrun, hrun'⟩, hs'', hv''⟩

theorem Reads.get (id : BlockId) : hS.Reads v (S.get id) (v id) := by
  constructor
  intro s hs hv
  obtain ⟨s', hrun, hs', hv'⟩ := hS.get_view id s hs
  exact ⟨s', by rw [hrun, hv], hs', hv'.trans hv⟩

variable (hS v) in
/-- Programs that only read the store compose. -/
def yields : Lib.Yields (StoreM σ) where
  rel := hS.Reads v
  pure := .pure
  bind := .bind

end RepoStore.Lawful

/-! ## Sizes of stored values -/

def MIN_SIZE : Nat := 4072
def PAGE_SIZE : Nat := 4096
def HEADER : Nat := PAGE_SIZE - MIN_SIZE
def MAX_FACTOR : Nat := 512

/-- Division by `d` with the remainder rounded half to even. -/
def divRoundHalfEven (n d : Nat) : Nat :=
  if 2 * (n % d) < d ∨ (2 * (n % d) = d ∧ n / d % 2 = 0) then n / d else n / d + 1

/-- `n as f32`: a significand of 24 bits, rounded half to even. -/
def asF32 (n : Nat) : Nat :=
  if n < 2 ^ 24 then n else divRoundHalfEven n (2 ^ (n.log2 - 23)) * 2 ^ (n.log2 - 23)

/-- A valid/optimal value size for the entries of the storage backend. The division by the page
size is exact in `f32`; `none` is an overflow of the addition in `usize`. -/
def storeValidValueSize (size : Nat) : Option Nat :=
  if size + HEADER < 2 ^ 64 then
    some (min ((asF32 (size + HEADER) + (PAGE_SIZE - 1)) / PAGE_SIZE) MAX_FACTOR * PAGE_SIZE
      - HEADER)
  else none

/-- The maximum value size for the entries of the storage backend. -/
def storeMaxValueSize : Nat := MAX_FACTOR * PAGE_SIZE - HEADER

theorem le_asF32 {n k : Nat} (hk : k < 2 ^ 24) (h : k ≤ n) : k ≤ asF32 n := by
  unfold asF32
  split
  · exact h
  · rename_i hn
    have h24 : 24 ≤ n.log2 := (Nat.le_log2 (by omega)).mpr (Nat.le_of_not_lt hn)
    have hpow : 2 ^ 23 * 2 ^ (n.log2 - 23) = 2 ^ n.log2 := by
      rw [← Nat.pow_add, Nat.add_sub_cancel' (by omega)]
    have hself : 2 ^ n.log2 ≤ n := Nat.log2_self_le (by omega)
    have hq : 2 ^ 23 ≤ n / 2 ^ (n.log2 - 23) :=
      (Nat.le_div_iff_mul_le (Nat.two_pow_pos _)).mpr (by omega)
    have hd : 2 ^ 23 ≤ divRoundHalfEven n (2 ^ (n.log2 - 23)) := by
      unfold divRoundHalfEven
      split <;> omega
    have h2 : 2 ^ 24 ≤ 2 ^ n.log2 := Nat.pow_le_pow_right (by omega) h24
    have := Nat.mul_le_mul_right (2 ^ (n.log2 - 23)) hd
    omega

/-- A valid value size lies between one and `MAX_FACTOR` pages, less the header. -/
theorem storeValidValueSize_bounds {size valid : Nat} (h : storeValidValueSize size = some valid) :
    MIN_SIZE ≤ valid ∧ valid ≤ storeMaxValueSize := by
  unfold storeValidValueSize at h
  split at h
  · have hpos : 1 ≤ asF32 (size + HEADER) :=
      le_asF32 (by omega) (by simp [HEADER, PAGE_SIZE, MIN_SIZE])
    have hpage : 1 ≤ (asF32 (size + HEADER) + (PAGE_SIZE - 1)) / PAGE_SIZE :=
      (Nat.le_div_iff_mul_le (by simp [PAGE_SIZE])).mpr (by simp only [PAGE_SIZE]; omega)
    generalize (asF32 (size + HEADER) + (PAGE_SIZE - 1)) / PAGE_SIZE = pages at h hpage
    cases h
    simp only [storeMaxValueSize, MIN_SIZE, HEADER, PAGE_SIZE, MAX_FACTOR]
    omega
  · cases h

theorem storeValidValueSize_eq_some {size : Nat} (h : size + HEADER < 2 ^ 64) :
    ∃ valid, storeValidValueSize size = some valid := by
  unfold storeValidValueSize
  rw [if_pos h]
  exact ⟨_, rfl⟩

theorem add_header_lt {size : Nat} (h : size < 2 ^ 32) : size + HEADER < 2 ^ 64 := by
  simp only [HEADER, PAGE_SIZE, MIN_SIZE]
  omega

/-! ## Store with a HashMap backend -/

structure HashMapRepoStore where
  blocks : BlockId → Option Block

namespace HashMapRepoStore

def new : HashMapRepoStore := ⟨fun _ => none⟩

def get (id : BlockId) : StoreM HashMapRepoStore (Except StorageError Block) := do
  match (← EStateM.get).blocks id with
  | some block => return .ok block
  | none => return .error .notFound

def put (P : Primitives) (block : Block) :
    StoreM HashMapRepoStore (Except StorageError BlockId) := do
  let id := block.id P
  let b := block.setKey none
  modify fun s => ⟨Function.update s.blocks id (some b)⟩
  return .ok id

/-- `sizeOfVal` is the size of a `Block` in memory. -/
def del (sizeOfVal : Nat) (id : BlockId) :
    StoreM HashMapRepoStore (Except StorageError (Block × Nat)) := do
  match (← EStateM.get).blocks id with
  | none => return .error .notFound
  | some block =>
    modify fun s => ⟨Function.update s.blocks id none⟩
    return .ok (block, sizeOfVal)

/-- `impl RepoStore for HashMapRepoStore` -/
def repoStore (P : Primitives) (sizeOfVal : Nat) : RepoStore HashMapRepoStore where
  get := get
  put := put P
  del := del sizeOfVal

def view (s : HashMapRepoStore) (id : BlockId) : Except StorageError Block :=
  match s.blocks id with
  | some block => .ok block
  | none => .error .notFound

@[simp] theorem view_new (id : BlockId) : new.view id = .error .notFound := rfl

theorem get_run (id : BlockId) (s : HashMapRepoStore) : get id s = .ok (s.view id) s := by
  simp only [get, view, bind, EStateM.bind]
  unfold EStateM.get
  dsimp only
  cases s.blocks id <;> rfl

theorem del_run (sizeOfVal : Nat) (id : BlockId) (s : HashMapRepoStore) :
    del sizeOfVal id s = .ok ((s.view id).map fun block => (block, sizeOfVal))
      ⟨Function.update s.blocks id none⟩ := by
  simp only [del, view, bind, EStateM.bind]
  unfold EStateM.get
  dsimp only
  cases h : s.blocks id with
  | some block => rfl
  | none =>
    have hsame : Function.update s.blocks id none = s.blocks := by
      rw [← h]
      exact Function.update_eq_self ..
    rw [hsame]
    rfl

/-- The hash map store returns the block last put under an id, without its key. -/
def lawful (P : Primitives) (D : Set BlockBody) (sizeOfVal : Nat) :
    (repoStore P sizeOfVal).Lawful P D where
  Inv _ := True
  view := view
  get_view id s _ := ⟨s, get_run id s, trivial, rfl⟩
  put_view b s _ hb _ := by
    refine ⟨⟨Function.update s.blocks (b.id P) (some (b.setKey none))⟩, b.setKey none, rfl, trivial,
      ?_, rfl, Block.setKey_valid hb none⟩
    funext id
    by_cases h : id = b.id P
    · subst h
      simp [view]
    · simp [view, h]

end HashMapRepoStore

end Lofire
