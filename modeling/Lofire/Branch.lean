import Lofire.Object.Load
import Mathlib.Data.Finset.SDiff
import Mathlib.Data.Finset.Sort
import Mathlib.Data.Finset.Union

/-!
# Branch synchronisation (`lofire/src/branch.rs`)

`Branch::sync_req`, written like the functions of `Object` for any monad with the store's `get`. A
`HashSet` is a finite set; the order in which it is iterated is a parameter. On a lawful store
`sync_req` computes what it computes from the view of the store (`syncReq_reads`).
-/

namespace Lofire

open Lib

/-- The order in which a `HashSet` is iterated. -/
structure HashOrder (α : Type) where
  toList : Finset α → List α
  mem : ∀ s a, a ∈ toList s ↔ a ∈ s
  nodup : ∀ s, (toList s).Nodup

/-- A set that is iterated in ascending order. -/
def HashOrder.ascending {α : Type} [LinearOrder α] : HashOrder α where
  toList s := s.sort (· ≤ ·)
  mem _ _ := Finset.mem_sort _
  nodup s := s.sort_nodup _

namespace Branch

/-- The output parameters `visited` and `missing` of `load_branch`. -/
structure Walk where
  visited : Finset ObjectId
  missing : Finset ObjectId

section Source

variable {m : Type → Type} [Monad m] (P : Primitives)

/-- The loop of `loadBranch` over the dependencies of a commit. -/
def loadDeps (load : ObjectId → m (Option (Except ObjectParseError Object)))
    (branch : Object → Walk → m (Option (Except ObjectParseError (Bool × Walk)))) :
    List ObjectId → Bool → Walk → m (Option (Except ObjectParseError (Bool × Walk)))
  | [], theirHeadFound, w => pure (some (.ok (theirHeadFound, w)))
  | id :: deps, theirHeadFound, w => do
    match ← load id with
    | none => pure none
    | some (.ok o) =>
      if id ∈ w.visited then loadDeps load branch deps theirHeadFound w
      else tryBind (branch o w) fun (found, w) =>
        loadDeps load branch deps (theirHeadFound || found) w
    | some (.error (.missingBlocks ids)) =>
      loadDeps load branch deps theirHeadFound { w with missing := w.missing ∪ ids.toFinset }
    | some (.error e) => pure (some (.error e))

/-- Load `Commit` `Object`s of a `Branch` from the `RepoStore` starting from the given `Object`,
and collect `ObjectId`s starting from `our_heads` towards `their_heads` -/
def loadBranch (load : ObjectId → m (Option (Except ObjectParseError Object)))
    (theirHeads : List ObjectId) : Nat → Object → Walk →
    m (Option (Except ObjectParseError (Bool × Walk)))
  | 0, _, _ => pure none
  | fuel + 1, cobj, w =>
    match cobj.id P with
    | none => pure none
    | some id =>
      -- root has no deps
      let isRoot := cobj.deps.isEmpty
      -- check if this commit object is present in their_heads
      let theirHeadFound := decide (id ∈ theirHeads)
      -- load deps, stop at the root or if this is a commit object from their_heads
      if !isRoot && !theirHeadFound then
        loadDeps load (loadBranch load theirHeads fuel) cobj.deps theirHeadFound
          { w with visited := insert id w.visited }
      else pure (some (.ok (theirHeadFound, w)))

/-- The loops of `syncReq` over a list of heads: each head is explored anew. -/
def loadHeads (load : ObjectId → m (Option (Except ObjectParseError Object)))
    (theirHeads : List ObjectId) (fuel : Nat) : List ObjectId → Finset ObjectId → Finset ObjectId →
    m (Option (Except ObjectParseError (Finset ObjectId × Finset ObjectId)))
  | [], collected, missing => pure (some (.ok (collected, missing)))
  | id :: heads, collected, missing =>
    tryBind (load id) fun cobj =>
      tryBind (loadBranch P load theirHeads fuel cobj ⟨∅, missing⟩) fun (_, w) =>
        loadHeads load theirHeads fuel heads (collected ∪ w.visited) w.missing

/-- The commits of `ours` to be sent. -/
def toSend (order : HashOrder ObjectId) (theirFilter : BloomFilter)
    (ours theirs : Finset ObjectId) :
    List ObjectId :=
  -- remove their_commits from result
  order.toList ((ours \ theirs).filter fun id => ¬ P.bloomContains theirFilter id.bytes)

/-- Branch sync request from another peer

Return ObjectIds to send -/
def syncReq (order : HashOrder ObjectId) (get : BlockId → m (Except StorageError Block))
    (fuel : Nat) (ourHeads theirHeads : List ObjectId) (theirFilter : BloomFilter) :
    m (Option (Except ObjectParseError (List ObjectId))) :=
  let load := fun id => Object.load P get fuel id none
  -- collect all commits reachable from our_heads
  -- up to the root or until encountering a commit from their_heads
  tryBind (loadHeads P load theirHeads fuel ourHeads ∅ ∅) fun (ours, missing) =>
    -- collect all commits reachable from their_heads
    tryBind (loadHeads P load [] fuel theirHeads ∅ missing) fun (theirs, _) =>
      pure (some (.ok (toSend P order theirFilter ours theirs)))

end Source

/-! ## Synchronisation from a view -/

section Yields

variable {m : Type → Type} [Monad m] (Y : Yields m) {P : Primitives}
  {load : ObjectId → m (Option (Except ObjectParseError Object))}
  {load' : ObjectId → Option (Except ObjectParseError Object)}

theorem loadDeps_yields (hload : ∀ id, Y.rel (load id) (load' id))
    {branch : Object → Walk → m (Option (Except ObjectParseError (Bool × Walk)))}
    {branch' : Object → Walk → Option (Except ObjectParseError (Bool × Walk))}
    (hbranch : ∀ o w, Y.rel (branch o w) (branch' o w)) (deps : List ObjectId)
    (theirHeadFound : Bool) (w : Walk) :
    Y.rel (loadDeps load branch deps theirHeadFound w)
      (loadDeps (m := Id) load' branch' deps theirHeadFound w) := by
  induction deps generalizing theirHeadFound w with
  | nil => exact Y.pure _
  | cons id deps ih =>
    refine Y.bind (hload id) ?_
    simp only [loadDeps, id_bind]
    rcases load' id with _ | e | o
    · exact Y.pure _
    · cases e with
      | missingBlocks ids => exact ih ..
      | _ => exact Y.pure _
    · dsimp only
      split
      · exact ih ..
      · exact Y.tryBind (hbranch o w) fun r _ => ih ..

theorem loadBranch_yields (hload : ∀ id, Y.rel (load id) (load' id)) (theirHeads : List ObjectId)
    (fuel : Nat) (cobj : Object) (w : Walk) :
    Y.rel (loadBranch P load theirHeads fuel cobj w)
      (loadBranch (m := Id) P load' theirHeads fuel cobj w) := by
  induction fuel generalizing cobj w with
  | zero => exact Y.pure _
  | succ fuel ih =>
    unfold loadBranch
    cases cobj.id P with
    | none => exact Y.pure _
    | some id =>
      dsimp only
      split
      · exact loadDeps_yields Y hload ih ..
      · exact Y.pure _

theorem loadHeads_yields (hload : ∀ id, Y.rel (load id) (load' id)) (theirHeads : List ObjectId)
    (fuel : Nat) (heads : List ObjectId) (collected missing : Finset ObjectId) :
    Y.rel (loadHeads P load theirHeads fuel heads collected missing)
      (loadHeads (m := Id) P load' theirHeads fuel heads collected missing) := by
  induction heads generalizing collected missing with
  | nil => exact Y.pure _
  | cons id heads ih =>
    exact Y.tryBind (hload id) fun cobj _ =>
      Y.tryBind (loadBranch_yields Y hload theirHeads fuel cobj _) fun r _ => ih ..

theorem syncReq_yields {get : BlockId → m (Except StorageError Block)} {v : Object.View}
    (hget : ∀ id, Y.rel (get id) (v id)) (order : HashOrder ObjectId) (fuel : Nat)
    (ourHeads theirHeads : List ObjectId) (theirFilter : BloomFilter) :
    Y.rel (syncReq P order get fuel ourHeads theirHeads theirFilter)
      (syncReq (m := Id) P order v fuel ourHeads theirHeads theirFilter) := by
  have hload : ∀ id, Y.rel (Object.load P get fuel id none) (Object.loadView P v id none fuel) :=
    fun id => Object.load_yields Y fuel (fun x _ => hget x) none
  exact Y.tryBind (loadHeads_yields Y hload ..) fun r _ =>
    Y.tryBind (loadHeads_yields Y hload ..) fun r' _ => Y.pure _

end Yields

/-- On a lawful store, `sync_req` computes what it computes from the view of the store. -/
theorem syncReq_reads {σ : Type} {P : Primitives} {D : Set BlockBody} {S : RepoStore σ}
    (hS : S.Lawful P D) (v : Object.View) (order : HashOrder ObjectId) (fuel : Nat)
    (ourHeads theirHeads : List ObjectId) (theirFilter : BloomFilter) :
    hS.Reads v (syncReq P order S.get fuel ourHeads theirHeads theirFilter)
      (syncReq (m := Id) P order v fuel ourHeads theirHeads theirFilter) :=
  syncReq_yields (hS.yields v) .get order fuel ourHeads theirHeads theirFilter

end Branch

end Lofire
