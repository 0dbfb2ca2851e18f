import Lofire.Commit.Ancestry
import Lofire.Signing

/-!
# Signing and verifying commits (`lofire/src/commit.rs`, `lofire/src/branch.rs`)

`Commit::new` signs the content of a commit, and `Commit::verify` checks in this order the
signature, the body, the permission of the author and the dependencies. Its verdict depends on
nothing but the signature, the members of the branch, and what the store has of the ancestry
(`verify_exact`).
-/

namespace Lofire

open Lib

/-- An error of `ed25519_dalek` -/
inductive SignatureError
  | error
  deriving DecidableEq

inductive CommitVerifyError
  | invalidSignature
  | permissionDenied
  | bodyLoadError (e : CommitLoadError)
  | depLoadError (e : CommitLoadError)
  deriving DecidableEq

/-- Check whether this member has permission for the given commit type -/
def Member.hasPerm (m : Member) (commitType : CommitType) : Bool :=
  m.commitTypes.contains commitType

/-- Get member by ID -/
def Branch.getMember (b : Branch) (id : PubKey) : Option Member :=
  b.members.find? fun m => m.id = id

/-- The first member with this id has the permission. -/
def Branch.Permits (b : Branch) (author : PubKey) (commitType : CommitType) : Prop :=
  ∃ m, b.getMember author = some m ∧ commitType ∈ m.commitTypes

namespace Commit

section Source

variable (P : Primitives) (C : Ed25519) (commitContent : Serde CommitContentV0)

/-- New commit -/
def new (authorPrivkey : PrivKey) (authorPubkey : PubKey) (seq : UInt32) (branch : ObjectRef)
    (deps acks refs : List ObjectRef) (metadata : Bytes) (body : ObjectRef)
    (expiry : Option Timestamp) : Except SignatureError Commit :=
  let content : CommitContentV0 :=
    ⟨authorPubkey, seq, branch, deps, acks, refs, metadata, body, expiry⟩
  let contentSer := commitContent.toVec content
  -- sign commit
  let kp := Ed25519.keypair authorPrivkey authorPubkey
  if C.isKeypair kp then .ok ⟨none, none, content, .ofBytes (C.sign kp contentSer)⟩
  else .error .error

/-- Verify commit signature -/
def verifySig (commit : Commit) : Except SignatureError Unit :=
  let contentSer := commitContent.toVec commit.content
  let pubkey := commit.content.author.slice.toList
  let sigBytes := commit.sig.concat
  if !C.isPublicKey pubkey then .error .error
  else if !C.isSignature sigBytes then .error .error
  else if C.verifyStrict pubkey contentSer sigBytes then .ok () else .error .error

/-- Verify commit permissions -/
def verifyPerm (commit : Commit) (body : CommitBody) (branch : Branch) :
    Except CommitVerifyError Unit :=
  match branch.getMember commit.content.author with
  | some m => if m.hasPerm body.toType then .ok () else .error .permissionDenied
  | none => .error .permissionDenied

variable {m : Type → Type} [Monad m]

/-- Verify signature, permissions, and dependencies -/
def verify (order : HashOrder ObjectId) (get : BlockId → m (Except StorageError Block)) (fuel : Nat)
    (commit : Commit) (branch : Branch) : m (Option (Except CommitVerifyError Unit)) := do
  match verifySig C commitContent commit with
  | .error _ => pure (some (.error .invalidSignature))
  | .ok () =>
    match ← loadBody P get fuel commit with
    | none => pure none
    | some (.error e) => pure (some (.error (.bodyLoadError e)))
    | some (.ok body) =>
      match verifyPerm commit body branch with
      | .error e => pure (some (.error e))
      | .ok () =>
        match ← verifyDeps P order get fuel commit with
        | none => pure none
        | some (.error e) => pure (some (.error (.depLoadError e)))
        | some (.ok _) => pure (some (.ok ()))

end Source

variable {P : Primitives} {C : Ed25519} {commitContent : Serde CommitContentV0}

/-! ## The signature and the permission -/

/-- The signature of the commit is its author's. -/
def Signed (C : Ed25519) (commitContent : Serde CommitContentV0) (commit : Commit) : Prop :=
  C.verify (commitContent.toVec commit.content) commit.sig commit.content.author = .ok ()

theorem verifySig_eq_ok_iff {commit : Commit} :
    verifySig C commitContent commit = .ok () ↔ Signed C commitContent commit := by
  rw [Signed, Ed25519.verify_eq_ok_iff]
  unfold verifySig
  dsimp only
  cases C.isPublicKey commit.content.author.slice.toList <;>
    cases C.isSignature commit.sig.concat <;>
    cases C.verifyStrict commit.content.author.slice.toList (commitContent.toVec commit.content)
      commit.sig.concat <;> simp

theorem verifyPerm_of_permits {commit : Commit} {body : CommitBody} {branch : Branch}
    (h : branch.Permits commit.content.author body.toType) :
    verifyPerm commit body branch = .ok () := by
  obtain ⟨m, hm, hperm⟩ := h
  simp [verifyPerm, hm, Member.hasPerm, hperm]

theorem verifyPerm_of_not_permits {commit : Commit} {body : CommitBody} {branch : Branch}
    (h : ¬ branch.Permits commit.content.author body.toType) :
    verifyPerm commit body branch = .error .permissionDenied := by
  unfold verifyPerm
  cases hm : branch.getMember commit.content.author with
  | none => rfl
  | some m =>
    have hperm : body.toType ∉ m.commitTypes := fun hperm => h ⟨m, hm, hperm⟩
    simp [Member.hasPerm, hperm]

/-! ## The verdict -/

theorem verify_yields {m : Type → Type} [Monad m] (Y : Yields m)
    {get : BlockId → m (Except StorageError Block)} {v : Object.View}
    (hget : ∀ id, Y.rel (get id) (v id)) (order : HashOrder ObjectId) (fuel : Nat)
    (commit : Commit) (branch : Branch) :
    Y.rel (verify P C commitContent order get fuel commit branch)
      (verify (m := Id) P C commitContent order v fuel commit branch) := by
  unfold verify
  cases verifySig C commitContent commit with
  | error e => exact Y.pure _
  | ok _ =>
    refine Y.bind (loadBodyRef_yields Y hget fuel commit.content.body) ?_
    simp only [loadBody, id_bind]
    rcases loadBodyRef (m := Id) P v fuel commit.content.body with _ | e | body
    · exact Y.pure _
    · exact Y.pure _
    · dsimp only
      cases verifyPerm commit body branch with
      | error e => exact Y.pure _
      | ok _ =>
        refine Y.bind (verifyDeps_yields Y hget order fuel commit) ?_
        dsimp only
        rcases verifyDeps (m := Id) P order v fuel commit with _ | e | ids
        · exact Y.pure _
        · exact Y.pure _
        · exact Y.pure _

/-- `verify` on the store in state `s` returns `res`. -/
def Verifies {σ : Type} (P : Primitives) (C : Ed25519) (commitContent : Serde CommitContentV0)
    (S : RepoStore σ) (order : HashOrder ObjectId) (s : σ) (commit : Commit) (branch : Branch)
    (res : Except CommitVerifyError Unit) : Prop :=
  ∃ n, ∀ fuel, n ≤ fuel → ∃ s',
    verify P C commitContent order S.get fuel commit branch s = .ok (some res) s'

section Store

variable {σ : Type} {D : Set BlockBody} {S : RepoStore σ} (hS : S.Lawful P D) {s : σ}
  (hs : hS.Inv s) {order : HashOrder ObjectId} {commit : Commit} {branch : Branch}

include hs

theorem verifies_iff {res : Except CommitVerifyError Unit} :
    Verifies P C commitContent S order s commit branch res ↔ Returns (fun fuel =>
      verify (m := Id) P C commitContent order (hS.view s) fuel commit branch) res :=
  Object.returns_iff_of_reads hs fun fuel =>
    verify_yields (hS.yields (hS.view s)) .get order fuel commit branch

theorem Verifies.unique {res res' : Except CommitVerifyError Unit}
    (h : Verifies P C commitContent S order s commit branch res)
    (h' : Verifies P C commitContent S order s commit branch res') : res = res' :=
  ((verifies_iff hS hs).mp h).unique ((verifies_iff hS hs).mp h')

theorem verifies_of_not_signed (hsig : ¬ Signed C commitContent commit) :
    Verifies P C commitContent S order s commit branch (.error .invalidSignature) := by
  refine (verifies_iff hS hs).mpr ⟨0, fun fuel _ => ?_⟩
  unfold verify
  cases hverify : verifySig C commitContent commit with
  | error e => rfl
  | ok _ => exact absurd (verifySig_eq_ok_iff.mp hverify) hsig

variable (hsig : Signed C commitContent commit)

include hsig

theorem verifies_of_body_error {e : CommitLoadError}
    (hbody : LoadsBody P (hS.view s) commit (.error e)) :
    Verifies P C commitContent S order s commit branch (.error (.bodyLoadError e)) := by
  obtain ⟨n, hn⟩ := hbody
  refine (verifies_iff hS hs).mpr ⟨n, fun fuel hle => ?_⟩
  unfold verify
  rw [verifySig_eq_ok_iff.mpr hsig]
  simp only [loadBody, id_bind, hn fuel hle]
  rfl

variable {body : CommitBody} (hbody : LoadsBody P (hS.view s) commit (.ok body))

include hbody

theorem verifies_of_not_permits (hnot : ¬ branch.Permits commit.content.author body.toType) :
    Verifies P C commitContent S order s commit branch (.error .permissionDenied) := by
  obtain ⟨n, hn⟩ := hbody
  refine (verifies_iff hS hs).mpr ⟨n, fun fuel hle => ?_⟩
  unfold verify
  rw [verifySig_eq_ok_iff.mpr hsig]
  simp only [loadBody, id_bind, hn fuel hle, verifyPerm_of_not_permits hnot]
  rfl

/-- The verdict on the dependencies. -/
def depsVerdict : Except CommitLoadError (List ObjectId) → Except CommitVerifyError Unit
  | .error e => .error (.depLoadError e)
  | .ok _ => .ok ()

theorem verifies_of_deps (hperm : branch.Permits commit.content.author body.toType)
    {res : Except CommitLoadError (List ObjectId)} (hdeps : VerifiesTo P S order s commit res) :
    Verifies P C commitContent S order s commit branch (depsVerdict res) := by
  obtain ⟨n, hn⟩ := hbody
  obtain ⟨k, hk⟩ := (Object.returns_iff_of_reads hs fun fuel =>
    verifyDeps_reads hS (hS.view s) order fuel commit).mp hdeps
  refine (verifies_iff hS hs).mpr ⟨max n k, fun fuel hle => ?_⟩
  unfold verify
  rw [verifySig_eq_ok_iff.mpr hsig]
  simp only [loadBody, id_bind, hn fuel (by omega), verifyPerm_of_permits hperm,
    hk fuel (by omega)]
  cases res <;> rfl

end Store

/-- The verdict on a commit, from its signature, the members of the branch and what the store has
of its body and its ancestry. -/
inductive Verdict (P : Primitives) (C : Ed25519) (commitContent : Serde CommitContentV0)
    (v : Object.View) (commit : Commit) (branch : Branch) : Except CommitVerifyError Unit → Prop
  | unsigned (h : ¬ Signed C commitContent commit) :
      Verdict P C commitContent v commit branch (.error .invalidSignature)
  | body (hsig : Signed C commitContent commit) {e : CommitLoadError}
      (h : LoadsBody P v commit (.error e)) :
      Verdict P C commitContent v commit branch (.error (.bodyLoadError e))
  | denied (hsig : Signed C commitContent commit) {body : CommitBody}
      (hbody : LoadsBody P v commit (.ok body))
      (h : ¬ branch.Permits commit.content.author body.toType) :
      Verdict P C commitContent v commit branch (.error .permissionDenied)
  | incomplete (hsig : Signed C commitContent commit) {body : CommitBody}
      (hbody : LoadsBody P v commit (.ok body))
      (hperm : branch.Permits commit.content.author body.toType) (h : ¬ Complete P v commit)
      {ids : List BlockId} (hids : {x | x ∈ ids} = missingIds P v commit) :
      Verdict P C commitContent v commit branch (.error (.depLoadError (.missingBlocks ids)))
  | ok (hsig : Signed C commitContent commit) {body : CommitBody}
      (hbody : LoadsBody P v commit (.ok body))
      (hperm : branch.Permits commit.content.author body.toType) (h : Complete P v commit) :
      Verdict P C commitContent v commit branch (.ok ())

section Verdict

variable {σ : Type} {D : Set BlockBody} {S : RepoStore σ} (hS : S.Lawful P D) {s : σ}
  (hs : hS.Inv s) (order : HashOrder ObjectId) {commit : Commit} (branch : Branch)

include hs

/-- A commit that is signed by a permitted author, whose whole ancestry loads. -/
theorem verifies_of_complete (hsig : Signed C commitContent commit) {body : CommitBody}
    (hbody : LoadsBody P (hS.view s) commit (.ok body))
    (hperm : branch.Permits commit.content.author body.toType)
    (h : Complete P (hS.view s) commit) :
    Verifies P C commitContent S order s commit branch (.ok ()) := by
  obtain ⟨V, hV⟩ : ∃ V : Finset ObjectId, ∀ x, x ∈ V :=
    ⟨(Set.toFinite Set.univ).toFinset, by simp⟩
  obtain ⟨n, hn⟩ := exists_fueled P (hS.view s)
  obtain ⟨k, hk⟩ := hbody
  refine (verifies_iff hS hs).mpr ⟨max k (max n (V.card + 2)), fun fuel hle => ?_⟩
  obtain ⟨ids, hids⟩ := verifyDeps_complete hV (hn fuel (by omega)) (by omega) order h
  unfold verify
  rw [verifySig_eq_ok_iff.mpr hsig]
  simp only [loadBody, id_bind, hk fuel (by omega), verifyPerm_of_permits hperm, hids]
  rfl

/-- `verify` gives this verdict, as long as nothing of the ancestry fails to load for a reason other
than missing blocks. -/
theorem verify_exact (hno : OnlyMissing P (hS.view s) commit)
    (hone : NamesOne P (hS.view s) commit) :
    ∃ res, Verdict P C commitContent (hS.view s) commit branch res ∧
      ∀ res', Verifies P C commitContent S order s commit branch res' ↔ res' = res := by
  have hresult : ∃ res, Verdict P C commitContent (hS.view s) commit branch res ∧
      Verifies P C commitContent S order s commit branch res := by
    by_cases hsig : Signed C commitContent commit
    · rcases hno.bodies commit .self with ⟨body, hbody⟩ | ⟨ids, hids⟩
      · by_cases hperm : branch.Permits commit.content.author body.toType
        · by_cases h : Complete P (hS.view s) commit
          · exact ⟨_, .ok hsig hbody hperm h,
              verifies_of_complete hS hs order branch hsig hbody hperm h⟩
          · obtain ⟨w, -, hmissing, hdeps⟩ := exists_verifiesTo hS hs order hno hone
            obtain ⟨x, hx⟩ := (missingIds_nonempty_iff hno).mpr h
            rw [if_pos ⟨x, (hmissing x).mpr hx⟩] at hdeps
            refine ⟨_, .incomplete hsig hbody hperm h ?_,
              verifies_of_deps hS hs hsig hbody hperm hdeps⟩
            ext x
            exact (order.mem ..).trans (hmissing x)
        · exact ⟨_, .denied hsig hbody hperm, verifies_of_not_permits hS hs hsig hbody hperm⟩
      · exact ⟨_, .body hsig hids, verifies_of_body_error hS hs hsig hids⟩
    · exact ⟨_, .unsigned hsig, verifies_of_not_signed hS hs hsig⟩
  obtain ⟨res, hverdict, hverifies⟩ := hresult
  refine ⟨res, hverdict, fun res' => ⟨fun h => h.unique hS hs hverifies, fun h => ?_⟩⟩
  rw [h]
  exact hverifies

end Verdict

/-- From an empty store, a commit that is signed fails with the body. -/
theorem verify_exact_new :
    let P := reference fun _ _ => false
    let C : Ed25519 :=
      ⟨fun _ => true, fun _ _ => .replicate 64 8, fun _ => true, fun _ => true, fun _ _ _ => true⟩
    let ref : ObjectRef := ⟨⟨.replicate 32 1⟩, ⟨.replicate 32 2⟩⟩
    let commit : Commit :=
      ⟨none, none, ⟨⟨.replicate 32 3⟩, 3, ref, [ref], [ref], [ref], [1, 2, 3], ref, some 2342⟩,
      ⟨(.replicate 32 0, .replicate 32 0)⟩⟩
    ∀ branch, Verifies P C (Reference.serde Reference.commitContent)
      (HashMapRepoStore.repoStore P 0) .ascending HashMapRepoStore.new commit branch
      (.error (.bodyLoadError (.missingBlocks [ref.id]))) := by
  intro P C ref commit branch
  have hno : OnlyMissing P HashMapRepoStore.new.view commit :=
    ⟨fun r _ => .inr ⟨_, loads_new r⟩, fun c _ => .inr ⟨_, loadsBody_new c⟩⟩
  have hself : ∀ c, Relevant P HashMapRepoStore.new.view commit c → c = commit := by
    intro c hc
    cases hc with
    | self => rfl
    | dep _ _ _ hload => cases hload.unique (loads_new _)
  have hone : NamesOne P HashMapRepoStore.new.view commit := by
    intro c c' hc hc' _ _
    rw [hself c hc, hself c' hc']
  obtain ⟨res, hverdict, hres⟩ : ∃ res, Verdict P C (Reference.serde Reference.commitContent)
      HashMapRepoStore.new.view commit branch res ∧ ∀ res', Verifies P C
        (Reference.serde Reference.commitContent) (HashMapRepoStore.repoStore P 0) .ascending .new
        commit branch res' ↔ res' = res :=
    verify_exact (HashMapRepoStore.lawful P ∅ 0) (s := .new) trivial .ascending branch hno hone
  refine (hres _).mpr ?_
  have hbody := loadsBody_new (P := P) commit
  cases hverdict with
  | unsigned h => exact absurd rfl h
  | body _ h =>
    cases hbody.unique h
    rfl
  | denied _ h => cases hbody.unique h
  | incomplete _ h => cases hbody.unique h
  | ok _ h => cases hbody.unique h

end Commit

end Lofire
