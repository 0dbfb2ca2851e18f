import Lofire.Branch

/-!
# Commits (`lofire/src/commit.rs`)

Loading a commit and its body, and `Commit::verify_deps`, written like the functions of `Object` and
`Branch` for any monad with the store's `get`. On a lawful store `verify_deps` computes what it
computes from the view of the store (`verifyDeps_reads`).
-/

namespace Lofire

open Lib

inductive CommitLoadError
  | missingBlocks (ids : List BlockId)
  | objectParseError
  | deserializeError
  deriving DecidableEq

/-- Get CommitType corresponding to CommitBody -/
def CommitBody.toType : CommitBody → CommitType
  | .ack => .ack
  | .addBranch _ => .addBranch
  | .addMembers _ => .addMembers
  | .branch _ => .branch
  | .endOfBranch _ => .endOfBranch
  | .removeBranch _ => .removeBranch
  | .repository _ => .repository
  | .snapshot _ => .snapshot
  | .transaction _ => .transaction

namespace Commit

/-- Get all direct commit dependencies of the commit (`deps`, `acks`) -/
def depsAcks (commit : Commit) : List ObjectRef := commit.content.acks ++ commit.content.deps

section Source

variable {m : Type → Type} [Monad m] (P : Primitives)

/-- Load commit from store -/
def load (get : BlockId → m (Except StorageError Block)) (fuel : Nat) (commitRef : ObjectRef) :
    m (Option (Except CommitLoadError Commit)) := do
  match ← Object.load P get fuel commitRef.id (some commitRef.key) with
  | none => pure none
  | some (.ok obj) =>
    match obj.content P with
    | none => pure none
    | some (.error _) => pure (some (.error .objectParseError))
    | some (.ok (.commit c)) =>
      pure (some (.ok { c with id? := some commitRef.id, key := some commitRef.key }))
    | some (.ok _) => pure (some (.error .deserializeError))
  | some (.error (.missingBlocks missing)) => pure (some (.error (.missingBlocks missing)))
  | some (.error _) => pure (some (.error .objectParseError))

/-- Load the commit body that `body` refers to -/
def loadBodyRef (get : BlockId → m (Except StorageError Block)) (fuel : Nat) (body : ObjectRef) :
    m (Option (Except CommitLoadError CommitBody)) := do
  match ← Object.load P get fuel body.id (some body.key) with
  | none => pure none
  | some (.error (.missingBlocks missing)) => pure (some (.error (.missingBlocks missing)))
  | some (.error _) => pure (some (.error .objectParseError))
  | some (.ok obj) =>
    match obj.content P with
    | none => pure none
    | some (.error _) => pure (some (.error .objectParseError))
    | some (.ok (.commitBody body)) => pure (some (.ok body))
    | some (.ok _) => pure (some (.error .deserializeError))

/-- Load commit body from store -/
def loadBody (get : BlockId → m (Except StorageError Block)) (fuel : Nat) (commit : Commit) :
    m (Option (Except CommitLoadError CommitBody)) :=
  loadBodyRef P get fuel commit.content.body

/-- The loop of `loadBranch` over the dependencies of a commit. -/
def loadDeps (load : ObjectRef → m (Option (Except CommitLoadError Commit)))
    (branch : Commit → Branch.Walk → m (Option (Except CommitLoadError Branch.Walk))) :
    List ObjectRef → Branch.Walk → m (Option (Except CommitLoadError Branch.Walk))
  | [], w => pure (some (.ok w))
  | dep :: deps, w => do
    match ← load dep with
    | none => pure none
    | some (.ok c) => tryBind (branch c w) fun w => loadDeps load branch deps w
    | some (.error (.missingBlocks ids)) =>
      loadDeps load branch deps { w with missing := w.missing ∪ ids.toFinset }
    | some (.error e) => pure (some (.error e))

/-- `loadBranch` once the commit is marked as visited. -/
def loadMarked (load : ObjectRef → m (Option (Except CommitLoadError Commit)))
    (body : Commit → m (Option (Except CommitLoadError CommitBody)))
    (branch : Commit → Branch.Walk → m (Option (Except CommitLoadError Branch.Walk)))
    (commit : Commit) (w : Branch.Walk) : m (Option (Except CommitLoadError Branch.Walk)) := do
  -- load body & check if it's the Branch commit at the root
  match ← body commit with
  | none => pure none
  | some (.ok b) =>
    let isRoot := decide (b.toType = .branch)
    -- load deps
    if !isRoot then loadDeps load branch commit.depsAcks w else pure (some (.ok w))
  | some (.error (.missingBlocks ids)) =>
    loadDeps load branch commit.depsAcks { w with missing := w.missing ∪ ids.toFinset }
  | some (.error e) => pure (some (.error e))

/-- Load `Commit`s of a `Branch` from the `RepoStore` starting from the given `Commit`,
and collect missing `ObjectId`s -/
def loadBranch (load : ObjectRef → m (Option (Except CommitLoadError Commit)))
    (body : Commit → m (Option (Except CommitLoadError CommitBody))) : Nat → Commit → Branch.Walk →
    m (Option (Except CommitLoadError Branch.Walk))
  | 0, _, _ => pure none
  | fuel + 1, commit, w =>
    -- the commit verify_deps() was called on may not have an ID set,
    -- but the commits loaded from store should have it
    match commit.id? with
    | some id =>
      if id ∈ w.visited then pure (some (.ok w))
      else loadMarked load body (loadBranch load body fuel) commit
        { w with visited := insert id w.visited }
    | none => loadMarked load body (loadBranch load body fuel) commit w

/-- Verify if the commit's `body` and dependencies (`deps` & `acks`) are available in the `store` -/
def verifyDeps (order : HashOrder ObjectId) (get : BlockId → m (Except StorageError Block))
    (fuel : Nat) (commit : Commit) : m (Option (Except CommitLoadError (List ObjectId))) :=
  tryBind (loadBranch (load P get fuel) (loadBody P get fuel) fuel commit ⟨∅, ∅⟩) fun w =>
    if w.missing.Nonempty then pure (some (.error (.missingBlocks (order.toList w.missing))))
    else pure (some (.ok (order.toList w.visited)))

end Source

/-! ## From a view -/

section Yields

variable {m : Type → Type} [Monad m] (Y : Yields m) {P : Primitives}
  {get : BlockId → m (Except StorageError Block)} {v : Object.View}

theorem load_yields (hget : ∀ id, Y.rel (get id) (v id)) (fuel : Nat) (commitRef : ObjectRef) :
    Y.rel (load P get fuel commitRef) (load (m := Id) P v fuel commitRef) := by
  refine Y.bind (Object.load_yields Y fuel (fun x _ => hget x) (some commitRef.key)) ?_
  simp only [Object.loadView, load, id_bind]
  rcases Object.load (m := Id) P v fuel commitRef.id (some commitRef.key) with _ | e | obj
  · exact Y.pure _
  · cases e <;> exact Y.pure _
  · dsimp only
    rcases obj.content P with _ | e | c
    · exact Y.pure _
    · exact Y.pure _
    · cases c <;> exact Y.pure _

theorem loadBodyRef_yields (hget : ∀ id, Y.rel (get id) (v id)) (fuel : Nat) (body : ObjectRef) :
    Y.rel (loadBodyRef P get fuel body) (loadBodyRef (m := Id) P v fuel body) := by
  refine Y.bind (Object.load_yields Y fuel (fun x _ => hget x) (some body.key)) ?_
  simp only [Object.loadView, loadBodyRef, id_bind]
  rcases Object.load (m := Id) P v fuel body.id (some body.key) with _ | e | obj
  · exact Y.pure _
  · cases e <;> exact Y.pure _
  · dsimp only
    rcases obj.content P with _ | e | c
    · exact Y.pure _
    · exact Y.pure _
    · cases c <;> exact Y.pure _

variable {load : ObjectRef → m (Option (Except CommitLoadError Commit))}
  {load' : ObjectRef → Option (Except CommitLoadError Commit)}
  {body : Commit → m (Option (Except CommitLoadError CommitBody))}
  {body' : Commit → Option (Except CommitLoadError CommitBody)}
  {branch : Commit → Branch.Walk → m (Option (Except CommitLoadError Branch.Walk))}
  {branch' : Commit → Branch.Walk → Option (Except CommitLoadError Branch.Walk)}

theorem loadDeps_yields (hload : ∀ r, Y.rel (load r) (load' r))
    (hbranch : ∀ c w, Y.rel (branch c w) (branch' c w)) (deps : List ObjectRef) (w : Branch.Walk) :
    Y.rel (loadDeps load branch deps w) (loadDeps (m := Id) load' branch' deps w) := by
  induction deps generalizing w with
  | nil => exact Y.pure _
  | cons dep deps ih =>
    refine Y.bind (hload dep) ?_
    simp only [loadDeps, id_bind]
    rcases load' dep with _ | e | c
    · exact Y.pure _
    · cases e with
      | missingBlocks ids => exact ih ..
      | _ => exact Y.pure _
    · exact Y.tryBind (hbranch c w) fun w _ => ih w

theorem loadMarked_yields (hload : ∀ r, Y.rel (load r) (load' r))
    (hbody : ∀ c, Y.rel (body c) (body' c)) (hbranch : ∀ c w, Y.rel (branch c w) (branch' c w))
    (commit : Commit) (w : Branch.Walk) :
    Y.rel (loadMarked load body branch commit w)
      (loadMarked (m := Id) load' body' branch' commit w) := by
  refine Y.bind (hbody commit) ?_
  simp only [loadMarked, id_bind]
  rcases body' commit with _ | e | b
  · exact Y.pure _
  · cases e with
    | missingBlocks ids => exact loadDeps_yields Y hload hbranch ..
    | _ => exact Y.pure _
  · dsimp only
    split
    · exact loadDeps_yields Y hload hbranch ..
    · exact Y.pure _

theorem loadBranch_yields (hload : ∀ r, Y.rel (load r) (load' r))
    (hbody : ∀ c, Y.rel (body c) (body' c)) (fuel : Nat) (commit : Commit) (w : Branch.Walk) :
    Y.rel (loadBranch load body fuel commit w)
      (loadBranch (m := Id) load' body' fuel commit w) := by
  induction fuel generalizing commit w with
  | zero => exact Y.pure _
  | succ fuel ih =>
    unfold loadBranch
    cases commit.id? with
    | none => exact loadMarked_yields Y hload hbody ih ..
    | some id =>
      dsimp only
      split
      · exact Y.pure _
      · exact loadMarked_yields Y hload hbody ih ..

theorem verifyDeps_yields (hget : ∀ id, Y.rel (get id) (v id)) (order : HashOrder ObjectId)
    (fuel : Nat) (commit : Commit) :
    Y.rel (verifyDeps P order get fuel commit) (verifyDeps (m := Id) P order v fuel commit) := by
  refine Y.tryBind (loadBranch_yields Y (load_yields Y hget fuel)
    (fun c => loadBodyRef_yields Y hget fuel c.content.body) ..) fun w _ => ?_
  split
  · exact Y.pure _
  · exact Y.pure _

end Yields

/-- On a lawful store, `verify_deps` computes what it computes from the view of the store. -/
theorem verifyDeps_reads {σ : Type} {P : Primitives} {D : Set BlockBody} {S : RepoStore σ}
    (hS : S.Lawful P D) (v : Object.View) (order : HashOrder ObjectId)
    (fuel : Nat) (commit : Commit) :
    hS.Reads v (verifyDeps P order S.get fuel commit)
      (verifyDeps (m := Id) P order v fuel commit) :=
  verifyDeps_yields (hS.yields v) .get order fuel commit

end Commit

end Lofire
