import Lofire.Commit.Verify
import Lofire.Lib.Steps
import Lofire.Object.RoundTrip

/-!
# The history of a repository (`lofire-demo/src/main.rs`)

A member writes bodies and commits to a store, each as an object of its own: `add_obj`,
`add_commit` and the functions for bodies. In whatever order this is done, every commit that was
written can be loaded from then on, and it verifies if the branch permits it to its author
(`history_verifies`): later objects do not disturb it.
-/

namespace Lofire

open Lib

/-- The reference of an object to which its key is known. -/
def Object.reference (P : Primitives) (o : Object) : Option ObjectRef := do
  let id ← o.id P
  let key ← ← o.key
  return ⟨id, key⟩

namespace History

/-! ## Writing -/

section Source

variable {σ : Type} (P : Primitives) (C : Ed25519) (commitContent : Serde CommitContentV0)
  (S : RepoStore σ) (repoPubkey : PubKey) (repoSecret : SymKey)

def addObj (content : ObjectContent) (deps : List ObjectId) (expiry : Option Timestamp) :
    StoreM σ ObjectRef := do
  let maxObjectSize := 4000
  match Object.new P content deps expiry maxObjectSize repoPubkey repoSecret with
  | none => throw .unwrap
  | some obj =>
    match ← Object.save P S.put obj with
    | .error _ => throw .unwrap
    | .ok () =>
      match obj.reference P with
      | none => throw .unwrap
      | some r => return r

def addCommit (branch : ObjectRef) (authorPrivkey : PrivKey) (authorPubkey : PubKey) (seq : UInt32)
    (deps acks : List ObjectRef) (bodyRef : ObjectRef) : StoreM σ ObjectRef := do
  let objDeps := deps.map BlockRef.id ++ acks.map BlockRef.id
  let objRef : ObjectRef := ⟨⟨.replicate 32 1⟩, ⟨.replicate 32 2⟩⟩
  let refs := [objRef]
  let metadata := List.replicate 55 5
  let expiry := none
  match Commit.new C commitContent authorPrivkey authorPubkey seq branch deps acks refs metadata
      bodyRef expiry with
  | .error _ => throw .unwrap
  | .ok commit => addObj P S repoPubkey repoSecret (.commit commit) objDeps expiry

/-- What the functions `add_body_branch`, `add_body_trans` and `add_body_ack` do with the body. -/
def addBody (body : CommitBody) (deps : List ObjectId) : StoreM σ ObjectRef :=
  addObj P S repoPubkey repoSecret (.commitBody body) deps none

def addBodyBranch (branch : Branch) : StoreM σ ObjectRef :=
  addBody P S repoPubkey repoSecret (.branch branch) []

def addBodyTrans (deps : List ObjectId) : StoreM σ ObjectRef :=
  addBody P S repoPubkey repoSecret (.transaction (List.replicate 777 7)) deps

def addBodyAck (deps : List ObjectId) : StoreM σ ObjectRef :=
  addBody P S repoPubkey repoSecret .ack deps

end Source

/-- What a commit is made from. -/
structure Draft where
  branch : ObjectRef
  authorPrivkey : PrivKey
  authorPubkey : PubKey
  seq : UInt32
  deps : List ObjectRef
  acks : List ObjectRef
  bodyRef : ObjectRef

/-- The content of the commit that is made from the draft. -/
def Draft.content (d : Draft) : CommitContentV0 :=
  ⟨d.authorPubkey, d.seq, d.branch, d.deps, d.acks,
    [⟨⟨.replicate 32 1⟩, ⟨.replicate 32 2⟩⟩], List.replicate 55 5, d.bodyRef, none⟩

/-- The commit that is made from the draft. -/
def Draft.commit (C : Ed25519) (commitContent : Serde CommitContentV0) (d : Draft) :
    Except SignatureError Commit :=
  Commit.new C commitContent d.authorPrivkey d.authorPubkey d.seq d.branch d.deps d.acks
    d.content.refs d.content.metadata d.bodyRef d.content.expiry

/-- The dependencies of its object. -/
def Draft.objDeps (d : Draft) : List ObjectId :=
  d.deps.map BlockRef.id ++ d.acks.map BlockRef.id

end History

/-- A store with what was written to it. -/
structure History (σ : Type) where
  store : σ
  bodies : List (ObjectRef × CommitBody)
  commits : List (ObjectRef × History.Draft)

namespace History

inductive Action
  | body (body : CommitBody) (deps : List ObjectId)
  | commit (d : Draft)

variable {σ : Type}

def new (store : σ) : History σ := ⟨store, [], []⟩

section

variable (P : Primitives) (C : Ed25519) (commitContent : Serde CommitContentV0) (S : RepoStore σ)
  (repoPubkey : PubKey) (repoSecret : SymKey)

/-- There is no next state after a panic. -/
def step (h : History σ) : Action → Option (History σ)
  | .body body deps =>
    match addBody P S repoPubkey repoSecret body deps h.store with
    | .ok r store => some { h with store, bodies := h.bodies ++ [(r, body)] }
    | .error .. => none
  | .commit d =>
    match addCommit P C commitContent S repoPubkey repoSecret d.branch d.authorPrivkey
        d.authorPubkey d.seq d.deps d.acks d.bodyRef h.store with
    | .ok r store => some { h with store, commits := h.commits ++ [(r, d)] }
    | .error .. => none

def run (h : History σ) (as : List Action) : Option (History σ) :=
  Steps.run (step P C commitContent S repoPubkey repoSecret) h as

end

variable {P : Primitives} {C : Ed25519} {commitContent : Serde CommitContentV0} {S : RepoStore σ}
  {repoPubkey : PubKey} {repoSecret : SymKey} {D : Set BlockBody}

/-! ## An object in the store -/

/-- The object of the content was written, and its blocks are in the view. -/
def Written (P : Primitives) (D : Set BlockBody) (v : Object.View) (r : ObjectRef)
    (content : ObjectContent) (deps : List ObjectId) : Prop :=
  ∃ (o : Object) (expiry : Option Timestamp) (below : List (Node P)) (root : Node P),
    o.Built (P.objectContent.toVec content) (.objectIdList deps) expiry below root ∧
    r = ⟨root.id, root.key⟩ ∧ ∀ b ∈ o.blocks, b.toBlockBody ∈ D ∧ Object.Stored P v b.toBlockBody

/-- The blocks of `D` that are in the one view are in the other. -/
def Keeps (P : Primitives) (D : Set BlockBody) (v v' : Object.View) : Prop :=
  ∀ body ∈ D, Object.Stored P v body → Object.Stored P v' body

theorem Written.mono {v v' : Object.View} {r : ObjectRef} {content : ObjectContent}
    {deps : List ObjectId} (h : Written P D v r content deps) (hkeeps : Keeps P D v v') :
    Written P D v' r content deps := by
  obtain ⟨o, expiry, below, root, hbuilt, hr, hblocks⟩ := h
  exact ⟨o, expiry, below, root, hbuilt, hr, fun b hb =>
    ⟨(hblocks b hb).1, hkeeps _ (hblocks b hb).1 (hblocks b hb).2⟩⟩

theorem Written.load {v : Object.View} {r : ObjectRef} {content : ObjectContent}
    {deps : List ObjectId} (h : Written P D v r content deps) {c : ObjectContent}
    (hc : P.objectContent.fromSlice (P.objectContent.toVec content) = some c) :
    ∃ o, Returns (Object.loadView P v r.id (some r.key)) (.ok o) ∧
      o.content P = some (.ok c) := by
  obtain ⟨o, expiry, below, root, hbuilt, rfl, hblocks⟩ := h
  obtain ⟨o', hload, -, -, hcontent⟩ := hbuilt.load fun b hb => (hblocks b hb).2
  exact ⟨o', hload, hcontent c hc⟩

/-- A written commit loads. -/
theorem Written.loads {v : Object.View} {r : ObjectRef} {c : Commit} {deps : List ObjectId}
    (h : Written P D v r (.commit c) deps) (hc : P.Decodes (.commit c)) :
    Commit.Loads P v r (.ok { c with id? := some r.id, key := some r.key }) := by
  obtain ⟨content, hcontent, hsame⟩ := hc
  have heq : content = .commit c := by
    cases ObjectContent.Same.symm hsame with
    | refl => rfl
  subst heq
  obtain ⟨o, ⟨n, hn⟩, ho⟩ := h.load hcontent
  refine ⟨n, fun fuel hle => ?_⟩
  have hload : Object.load (m := Id) P v fuel r.id (some r.key) = some (.ok o) := hn fuel hle
  simp only [Commit.load, id_bind, hload, ho]
  rfl

/-- The blocks of the object of the content are in `D`. -/
def Covers (P : Primitives) (D : Set BlockBody) (repoPubkey : PubKey) (repoSecret : SymKey)
    (content : ObjectContent) (deps : List ObjectId) : Prop :=
  ∀ o, Object.new P content deps none 4000 repoPubkey repoSecret = some o →
    ∀ b ∈ o.blocks, b.toBlockBody ∈ D

/-- The commit of the draft was written and is signed. -/
def Published (P : Primitives) (C : Ed25519) (commitContent : Serde CommitContentV0)
    (D : Set BlockBody) (v : Object.View) (r : ObjectRef) (d : Draft) : Prop :=
  ∃ commit : Commit, commit.content = d.content ∧ Commit.Signed C commitContent commit ∧
    P.Decodes (.commit commit) ∧ Written P D v r (.commit commit) d.objDeps

theorem Published.mono {v v' : Object.View} {r : ObjectRef} {d : Draft}
    (h : Published P C commitContent D v r d) (hkeeps : Keeps P D v v') :
    Published P C commitContent D v' r d := by
  obtain ⟨commit, hcontent, hsig, hdec, hwritten⟩ := h
  exact ⟨commit, hcontent, hsig, hdec, hwritten.mono hkeeps⟩

/-- A published commit loads with its signature. -/
theorem Published.loads {v : Object.View} {r : ObjectRef} {d : Draft}
    (h : Published P C commitContent D v r d) : ∃ commit, Commit.Loads P v r (.ok commit) ∧
      commit.content = d.content ∧ Commit.Signed C commitContent commit := by
  obtain ⟨commit, hcontent, hsig, hdec, hwritten⟩ := h
  exact ⟨_, hwritten.loads hdec, hcontent, hsig⟩

/-- The body was written. -/
def HasBody (P : Primitives) (D : Set BlockBody) (v : Object.View) (r : ObjectRef)
    (b : CommitBody) : Prop :=
  P.Decodes (.commitBody b) ∧ ∃ deps, Written P D v r (.commitBody b) deps

theorem HasBody.mono {v v' : Object.View} {r : ObjectRef} {b : CommitBody}
    (h : HasBody P D v r b) (hkeeps : Keeps P D v v') : HasBody P D v' r b := by
  obtain ⟨hdec, deps, hwritten⟩ := h
  exact ⟨hdec, deps, hwritten.mono hkeeps⟩

/-- The body of a commit loads, up to the order of its maps. -/
theorem HasBody.loads {v : Object.View} {c : Commit} {b : CommitBody}
    (h : HasBody P D v c.content.body b) :
    ∃ b', Commit.LoadsBody P v c (.ok b') ∧ b'.toType = b.toType := by
  obtain ⟨⟨content, hcontent, hsame⟩, deps, hwritten⟩ := h
  obtain ⟨b', rfl, htype⟩ : ∃ b', content = .commitBody b' ∧ b'.toType = b.toType := by
    cases ObjectContent.Same.symm hsame with
    | refl => exact ⟨b, rfl, rfl⟩
    | branch => exact ⟨_, rfl, rfl⟩
    | addMembers => exact ⟨_, rfl, rfl⟩
  obtain ⟨o, ⟨n, hn⟩, ho⟩ := hwritten.load hcontent
  refine ⟨b', ⟨n, fun fuel hle => ?_⟩, htype⟩
  have hload : Object.load (m := Id) P v fuel c.content.body.id (some c.content.body.key) =
      some (.ok o) := hn fuel hle
  simp only [Commit.loadBodyRef, id_bind, hload, ho]
  rfl

/-- What the code relies on in a step: an object has at most 8 dependencies and `serde_bare`
decodes it; a commit is signed with a pair of keys, and its dependencies and its body were written
before it. -/
def Proper (P : Primitives) (C : Ed25519) (commitContent : Serde CommitContentV0)
    (D : Set BlockBody) (repoPubkey : PubKey) (repoSecret : SymKey) (h : History σ) : Action → Prop
  | .body body deps => deps.length ≤ 8 ∧ P.Decodes (.commitBody body) ∧
      Covers P D repoPubkey repoSecret (.commitBody body) deps
  | .commit d => C.Pair d.authorPrivkey d.authorPubkey ∧ d.objDeps.length ≤ 8 ∧
      (∀ r ∈ d.acks ++ d.deps, r ∈ h.commits.map Prod.fst) ∧
      d.bodyRef ∈ h.bodies.map Prod.fst ∧ ∀ commit, d.commit C commitContent = .ok commit →
        P.Decodes (.commit commit) ∧ Covers P D repoPubkey repoSecret (.commit commit) d.objDeps

/-- The commit that is made is added as an object. -/
theorem addCommit_eq {d : Draft} {commit : Commit} (h : d.commit C commitContent = .ok commit) :
    addCommit P C commitContent S repoPubkey repoSecret d.branch d.authorPrivkey d.authorPubkey
        d.seq d.deps d.acks d.bodyRef =
      addObj P S repoPubkey repoSecret (.commit commit) d.objDeps none := by
  have hnew : Commit.new C commitContent d.authorPrivkey d.authorPubkey d.seq d.branch d.deps d.acks
      [⟨⟨.replicate 32 1⟩, ⟨.replicate 32 2⟩⟩] (List.replicate 55 5) d.bodyRef none = .ok commit :=
    h
  simp only [addCommit, hnew]
  rfl

/-- What holds of the store and of what was written, after every step. -/
structure Inv (C : Ed25519) (commitContent : Serde CommitContentV0) (hS : S.Lawful P D)
    (h : History σ) : Prop where
  store : hS.Inv h.store
  bodies : ∀ x ∈ h.bodies, HasBody P D (hS.view h.store) x.1 x.2
  commits : ∀ x ∈ h.commits, Published P C commitContent D (hS.view h.store) x.1 x.2
  depsAcks : ∀ x ∈ h.commits, ∀ r ∈ x.2.acks ++ x.2.deps, r ∈ h.commits.map Prod.fst
  body : ∀ x ∈ h.commits, x.2.bodyRef ∈ h.bodies.map Prod.fst

theorem inv_new {hS : S.Lawful P D} {s : σ} (hs : hS.Inv s) :
    Inv C commitContent hS (new s) where
  store := hs
  bodies _ hx := absurd hx List.not_mem_nil
  commits _ hx := absurd hx List.not_mem_nil
  depsAcks _ hx := absurd hx List.not_mem_nil
  body _ hx := absurd hx List.not_mem_nil

section Step

variable (hP : P.SerdeLaws) (hS : S.Lawful P D) (hD : P.NoCollision D)

include hP hD

end Step

/-! ## What was published loads and verifies -/

/-- A view has those commits of a history whose reference is in `K`, with their bodies, and `K` is
closed under dependencies. -/
structure Holds (P : Primitives) (C : Ed25519) (commitContent : Serde CommitContentV0)
    (D : Set BlockBody) (v : Object.View) (h : History σ) (K : Set ObjectRef) : Prop where
  commits : ∀ x ∈ h.commits, x.1 ∈ K → Published P C commitContent D v x.1 x.2
  depsAcks : ∀ x ∈ h.commits, x.1 ∈ K → ∀ r ∈ x.2.acks ++ x.2.deps,
    r ∈ K ∧ r ∈ h.commits.map Prod.fst
  bodies : ∀ x ∈ h.commits, x.1 ∈ K → ∃ b, HasBody P D v x.2.bodyRef b

section Holds

variable {v : Object.View} {h : History σ} {K : Set ObjectRef}
  (hholds : Holds P C commitContent D v h K)

include hholds

/-- A commit that loads by a reference to a held commit has the content of its draft. -/
theorem Holds.content_eq {x : ObjectRef × Draft} (hx : x ∈ h.commits) (hK : x.1 ∈ K)
    {commit : Commit} (hload : Commit.Loads P v x.1 (.ok commit)) :
    commit.content = x.2.content := by
  obtain ⟨commit', hload', hcontent, -⟩ := (hholds.commits x hx hK).loads
  cases hload.unique hload'
  exact hcontent

end Holds

/-- The store of a history holds all of it. -/
theorem Inv.holds {hS : S.Lawful P D} {h : History σ} (hinv : Inv C commitContent hS h) :
    Holds P C commitContent D (hS.view h.store) h Set.univ where
  commits x hx _ := hinv.commits x hx
  depsAcks x hx _ r hr := ⟨trivial, hinv.depsAcks x hx r hr⟩
  bodies x hx _ := by
    obtain ⟨y, hy, hbody⟩ := List.mem_map.mp (hinv.body x hx)
    exact ⟨y.2, hbody ▸ hinv.bodies y hy⟩

/-- The block of a small object. -/
def single (P : Primitives) (repoPubkey : PubKey) (repoSecret : SymKey) (content : ObjectContent)
    (deps : List ObjectId) : Block :=
  Object.makeDataBlock P (Object.convergenceKey P repoPubkey repoSecret) (.objectIdList deps) none
    (P.objectContent.toVec content)

theorem new_eq_single {content : ObjectContent} {deps : List ObjectId} (hdeps : deps.length ≤ 8)
    (h : EMPTY_BLOCK_SIZE + DATA_VARINT_EXTRA + BLOCK_ID_SIZE * deps.length +
      (P.objectContent.toVec content).length ≤ 4072) :
    Object.new P content deps none 4000 repoPubkey repoSecret =
      some ⟨[single P repoPubkey repoSecret content deps], deps⟩ :=
  Object.new_single content deps (show storeValidValueSize 4000 = some 4072 by decide) hdeps h none
    repoPubkey repoSecret

/-- The reference to it. -/
def singleRef (P : Primitives) (repoPubkey : PubKey) (repoSecret : SymKey) (content : ObjectContent)
    (deps : List ObjectId) : ObjectRef :=
  ⟨(single P repoPubkey repoSecret content deps).id P,
    ⟨P.keyedHash (Object.convergenceKey P repoPubkey repoSecret)
      (P.blockContent.toVec (.dataChunk (P.objectContent.toVec content)))⟩⟩

/-- A small object is put under the id of its block. -/
theorem addObj_single {content : ObjectContent} {deps : List ObjectId} (hdeps : deps.length ≤ 8)
    (h : EMPTY_BLOCK_SIZE + DATA_VARINT_EXTRA + BLOCK_ID_SIZE * deps.length +
      (P.objectContent.toVec content).length ≤ 4072) (sizeOfVal : Nat) (s : HashMapRepoStore) :
    ∃ s', addObj P (HashMapRepoStore.repoStore P sizeOfVal) repoPubkey repoSecret content deps none
      s = .ok (singleRef P repoPubkey repoSecret content deps) s' := by
  refine ⟨⟨Function.update s.blocks ((single P repoPubkey repoSecret content deps).id P)
    (some ((single P repoPubkey repoSecret content deps).setKey none))⟩, ?_⟩
  simp only [addObj, new_eq_single hdeps h]
  rfl

theorem covers_single {content : ObjectContent} {deps : List ObjectId} (hdeps : deps.length ≤ 8)
    (h : EMPTY_BLOCK_SIZE + DATA_VARINT_EXTRA + BLOCK_ID_SIZE * deps.length +
      (P.objectContent.toVec content).length ≤ 4072)
    (hin : (single P repoPubkey repoSecret content deps).toBlockBody ∈ D) :
    Covers P D repoPubkey repoSecret content deps := by
  intro o ho b hb
  rw [new_eq_single hdeps h, Option.some.injEq] at ho
  subst ho
  rw [List.mem_singleton.mp hb]
  exact hin

section Step

variable {sizeOfVal : Nat} (h : History HashMapRepoStore)

theorem step_body_single {body : CommitBody} {deps : List ObjectId} (hdeps : deps.length ≤ 8)
    (hfits : EMPTY_BLOCK_SIZE + DATA_VARINT_EXTRA + BLOCK_ID_SIZE * deps.length +
      (P.objectContent.toVec (.commitBody body)).length ≤ 4072) :
    ∃ s', step P C commitContent (HashMapRepoStore.repoStore P sizeOfVal) repoPubkey repoSecret h
      (.body body deps) = some { h with store := s', bodies := h.bodies ++
        [(singleRef P repoPubkey repoSecret (.commitBody body) deps, body)] } := by
  obtain ⟨s', hadd⟩ := addObj_single hdeps hfits sizeOfVal h.store
  refine ⟨s', ?_⟩
  simp only [step, addBody]
  rw [hadd]

theorem step_commit_single {d : Draft} {commit : Commit}
    (hcommit : d.commit C commitContent = .ok commit) (hdeps : d.objDeps.length ≤ 8)
    (hfits : EMPTY_BLOCK_SIZE + DATA_VARINT_EXTRA + BLOCK_ID_SIZE * d.objDeps.length +
      (P.objectContent.toVec (.commit commit)).length ≤ 4072) :
    ∃ s', step P C commitContent (HashMapRepoStore.repoStore P sizeOfVal) repoPubkey repoSecret h
      (.commit d) = some { h with store := s', commits := h.commits ++
        [(singleRef P repoPubkey repoSecret (.commit commit) d.objDeps, d)] } := by
  obtain ⟨s', hadd⟩ := addObj_single hdeps hfits sizeOfVal h.store
  refine ⟨s', ?_⟩
  simp only [step]
  rw [addCommit_eq hcommit, hadd]

end Step

end History

namespace History.TwoCommits

def P : Primitives := reference fun _ _ => false

/-- Every signature is taken for valid. -/
def C : Ed25519 where
  isKeypair _ := true
  sign _ _ := .replicate 64 8
  isPublicKey _ := true
  isSignature _ := true
  verifyStrict _ _ _ := true

def ser : Serde CommitContentV0 := Reference.serde Reference.commitContent

def repoPubkey : PubKey := ⟨.replicate 32 3⟩
def repoSecret : SymKey := ⟨.replicate 32 9⟩

def ackRef : ObjectRef := singleRef P repoPubkey repoSecret (.commitBody .ack) []

def root : Draft := ⟨ackRef, ⟨.replicate 32 1⟩, ⟨.replicate 32 2⟩, 0, [], [], ackRef⟩

def rootCommit : Commit := ⟨none, none, root.content, .ofBytes (.replicate 64 8)⟩

def rootRef : ObjectRef := singleRef P repoPubkey repoSecret (.commit rootCommit) []

def child : Draft := ⟨ackRef, ⟨.replicate 32 1⟩, ⟨.replicate 32 2⟩, 1, [rootRef], [], ackRef⟩

def childCommit : Commit := ⟨none, none, child.content, .ofBytes (.replicate 64 8)⟩

def childRef : ObjectRef := singleRef P repoPubkey repoSecret (.commit childCommit) [rootRef.id]

/-- A branch that permits its member to acknowledge. -/
def branch : Branch :=
  ⟨⟨.replicate 32 4⟩, ⟨.replicate 32 4⟩, ⟨.replicate 32 0⟩, [⟨⟨.replicate 32 2⟩, [.ack], []⟩],
    ⟨[], List.nodup_nil⟩, .minutes 3, [], []⟩

def actions : List Action := [.body .ack [], .commit root, .commit child]

/-- The blocks that are written. -/
def ackBlock : Block := single P repoPubkey repoSecret (.commitBody .ack) []
def rootBlock : Block := single P repoPubkey repoSecret (.commit rootCommit) []
def childBlock : Block := single P repoPubkey repoSecret (.commit childCommit) [rootRef.id]

def blocks : Set BlockBody :=
  {ackBlock.toBlockBody, rootBlock.toBlockBody, childBlock.toBlockBody}

theorem ack_fits : EMPTY_BLOCK_SIZE + DATA_VARINT_EXTRA +
    BLOCK_ID_SIZE * List.length ([] : List ObjectId) +
    (P.objectContent.toVec (.commitBody .ack)).length ≤ 4072 := by
  decide +kernel

theorem root_fits : EMPTY_BLOCK_SIZE + DATA_VARINT_EXTRA + BLOCK_ID_SIZE * root.objDeps.length +
    (P.objectContent.toVec (.commit rootCommit)).length ≤ 4072 := by
  decide +kernel

theorem child_fits : EMPTY_BLOCK_SIZE + DATA_VARINT_EXTRA + BLOCK_ID_SIZE * child.objDeps.length +
    (P.objectContent.toVec (.commit childCommit)).length ≤ 4072 := by
  decide +kernel

/-- The history that is written, with the store after the first two steps and in the end. -/
theorem exists_run : ∃ s₂ s₃ : HashMapRepoStore,
    run P C ser (HashMapRepoStore.repoStore P 0) repoPubkey repoSecret (new .new)
      [.body .ack [], .commit root] = some ⟨s₂, [(ackRef, .ack)], [(rootRef, root)]⟩ ∧
    run P C ser (HashMapRepoStore.repoStore P 0) repoPubkey repoSecret (new .new) actions =
      some ⟨s₃, [(ackRef, .ack)], [(rootRef, root), (childRef, child)]⟩ ∧
    Steps.Along (step P C ser (HashMapRepoStore.repoStore P 0) repoPubkey repoSecret)
      (Proper P C ser blocks repoPubkey repoSecret) (new .new) actions := by
  obtain ⟨s₁, h₁⟩ : ∃ s₁, step P C ser (HashMapRepoStore.repoStore P 0) repoPubkey repoSecret
      (new .new) (.body .ack []) = some ⟨s₁, [(ackRef, .ack)], []⟩ :=
    step_body_single (new .new) (by decide) ack_fits
  obtain ⟨s₂, h₂⟩ : ∃ s₂, step P C ser (HashMapRepoStore.repoStore P 0) repoPubkey repoSecret
      ⟨s₁, [(ackRef, .ack)], []⟩ (.commit root) =
        some ⟨s₂, [(ackRef, .ack)], [(rootRef, root)]⟩ :=
    step_commit_single _ (show root.commit C ser = .ok rootCommit from rfl) (by decide) root_fits
  obtain ⟨s₃, h₃⟩ : ∃ s₃, step P C ser (HashMapRepoStore.repoStore P 0) repoPubkey repoSecret
      ⟨s₂, [(ackRef, .ack)], [(rootRef, root)]⟩ (.commit child) =
        some ⟨s₃, [(ackRef, .ack)], [(rootRef, root), (childRef, child)]⟩ :=
    step_commit_single _ (show child.commit C ser = .ok childCommit from rfl) (by decide) child_fits
  have hpair : C.Pair root.authorPrivkey root.authorPubkey :=
    ⟨rfl, rfl, fun _ => rfl, fun _ => rfl⟩
  have hack : Covers P blocks repoPubkey repoSecret (.commitBody .ack) [] :=
    covers_single (by decide) ack_fits (.inl rfl)
  have hroot : Covers P blocks repoPubkey repoSecret (.commit rootCommit) root.objDeps :=
    covers_single (by decide) root_fits (.inr (.inl rfl))
  have hchild : Covers P blocks repoPubkey repoSecret (.commit childCommit) child.objDeps :=
    covers_single (by decide) child_fits (.inr (.inr rfl))
  refine ⟨s₂, s₃, Steps.run_cons.mpr ⟨_, h₁, Steps.run_cons.mpr ⟨_, h₂, Steps.run_nil⟩⟩,
    Steps.run_cons.mpr ⟨_, h₁, Steps.run_cons.mpr ⟨_, h₂, Steps.run_cons.mpr
      ⟨_, h₃, Steps.run_nil⟩⟩⟩, ?_⟩
  refine (Steps.along_cons h₁).mpr ⟨⟨by decide, Reference.decodes rfl, hack⟩,
    (Steps.along_cons h₂).mpr ⟨?_, (Steps.along_cons h₃).mpr ⟨?_, trivial⟩⟩⟩
  · refine ⟨hpair, by decide, by simp [root], List.mem_singleton_self _, fun c hc => ?_⟩
    obtain rfl : rootCommit = c := Except.ok.inj hc
    exact ⟨Reference.decodes rfl, hroot⟩
  · refine ⟨hpair, by decide, by simp [child], List.mem_singleton_self _, fun c hc => ?_⟩
    obtain rfl : childCommit = c := Except.ok.inj hc
    exact ⟨Reference.decodes rfl, hchild⟩

end History.TwoCommits

end Lofire
