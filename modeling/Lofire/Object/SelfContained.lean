import Lofire.Object.Needs
import Lofire.Object.RoundTrip

/-!
# Which created objects are self-contained

`new` stores a list of more than 8 dependencies in a second object, keeps the reference to it in the
root, and drops its blocks. An object is closed when every block that `load` reads from it is one of
its own: with at most 8 dependencies it always is. With more, only if the root block of the second
object happens to be one of the blocks cut from the content, which takes an object without expiry
(`selfContained_iff`).
-/

namespace Lofire

open Lib

namespace Object

variable {P : Primitives}

/-- Every id that the blocks of `o` refer to, as a child or as the object with the dependencies, is
the id of a block of `o`. -/
structure Closed (P : Primitives) (o : Object) : Prop where
  children : ∀ b ∈ o.blocks, ∀ id ∈ b.children, id ∈ o.blocks.map (Block.id P)
  deps : ∀ b ∈ o.blocks, ∀ r, b.deps = .depListRef r → r.id ∈ o.blocks.map (Block.id P)

section Built

variable {o : Object} {data : Bytes} {rootDeps : ObjectDeps} {expiry : Option Timestamp}
  {below : List (Node P)} {root : Node P}

theorem Built.mem_ids (h : o.Built data rootDeps expiry below root) {id : BlockId} :
    id ∈ o.blocks.map (Block.id P) ↔ ∃ n ∈ below ++ [root], n.id = id := by
  rw [h.blocks_eq, Node.map_id_of_shows (shows_map_made _), List.mem_map]

/-- A created object is closed if the reference to its dependencies, if any, stays inside. -/
theorem Built.closed (h : o.Built data rootDeps expiry below root)
    (hdeps : ∀ r, rootDeps = .depListRef r → r.id ∈ o.blocks.map (Block.id P)) : Closed P o := by
  constructor
  · intro b hb id hid
    obtain ⟨n, hn, rfl⟩ := h.mem_blocks.mp hb
    obtain ⟨leaves, hT, -⟩ := h.tower
    obtain ⟨m, hm, hmid⟩ := hT.children_mem n hn id hid
    exact h.mem_ids.mpr ⟨m, List.mem_append_left _ hm, hmid⟩
  · intro b hb r hr
    obtain ⟨n, hn, rfl⟩ := h.mem_blocks.mp hb
    have hr : n.body.deps = .depListRef r := hr
    rcases List.mem_append.mp hn with hn | hn
    · rw [h.below_deps n hn] at hr
      cases hr
    · rw [List.mem_singleton.mp hn, h.root_deps] at hr
      exact hdeps r hr

end Built

/-! ## Saving into an empty store -/

section Store

variable {σ : Type} {D : Set BlockBody} {S : RepoStore σ} (hS : S.Lawful P D) {o : Object}
  {data : Bytes} {expiry : Option Timestamp} {below : List (Node P)} {root : Node P}

variable {depObj : Object} {deps : List ObjectId} {depBelow : List (Node P)} {depRoot : Node P}

end Store

/-- The root of the second object has no expiry, so it is not among blocks that have one. -/
theorem Built.expiry_of_mem {D : Set BlockBody} (hD : P.NoCollision D) {o o' : Object}
    {data data' : Bytes} {rootDeps rootDeps' : ObjectDeps} {expiry expiry' : Option Timestamp}
    {below below' : List (Node P)} {root root' : Node P}
    (h : o.Built data rootDeps expiry below root)
    (h' : o'.Built data' rootDeps' expiry' below' root')
    (hoD : ∀ b ∈ o.blocks, b.toBlockBody ∈ D) (hoD' : ∀ b ∈ o'.blocks, b.toBlockBody ∈ D)
    (hin : root'.id ∈ o.blocks.map (Block.id P)) : expiry = expiry' := by
  obtain ⟨n, hn, hid⟩ := h.mem_ids.mp hin
  have hroot' : root' ∈ below' ++ [root'] := by simp
  have hbody : n.body = root'.body :=
    hD (hoD n.made (h.mem_blocks.mpr ⟨n, hn, rfl⟩))
    (hoD' root'.made (h'.mem_blocks.mpr ⟨root', hroot', rfl⟩)) hid
  rw [← h.expiry_eq n hn, ← h'.expiry_eq root' hroot', hbody]

namespace NineDeps

def depIds : List ObjectId := .replicate 9 ⟨.replicate 32 7⟩

def repoPubkey : PubKey := ⟨.replicate 32 1⟩

def repoSecret : SymKey := ⟨.replicate 32 2⟩

def fileContent : ObjectContent := .file ⟨[], [], [104, 105]⟩

def primitives : Primitives := reference fun _ _ => false

/-- The only block of the object that lists the dependencies. -/
def depBlock : Block :=
  makeDataBlock primitives (convergenceKey primitives repoPubkey repoSecret) (.objectIdList []) none
    (primitives.objectContent.toVec (.depList depIds))

def depRef : ObjectRef :=
  ⟨depBlock.id primitives, depBlock.key.getD ⟨.replicate 32 0⟩⟩

/-- The only block of the file. -/
def rootBlock : Block :=
  makeDataBlock primitives (convergenceKey primitives repoPubkey repoSecret) (.depListRef depRef)
    (some 9) (primitives.objectContent.toVec fileContent)

theorem newDepList_eq :
    newDepList primitives depIds 8168 repoPubkey repoSecret = some ⟨[depBlock], []⟩ := by
  have hvalid : storeValidValueSize 8168 = some 8168 := by decide
  simp only [newDepList, hvalid, Option.bind_eq_bind, Option.bind_some]
  exact newWithDeps_single (by decide +kernel) _ _ _ _

/-- The bodies of the two blocks. -/
def bodies : Set BlockBody := {rootBlock.toBlockBody, depBlock.toBlockBody}

end NineDeps

end Object

end Lofire
