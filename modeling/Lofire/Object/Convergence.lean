import Lofire.Object.SelfContained

/-!
# Equal contents and their objects

The encryption is convergent: the key of a block is a keyed hash of its content, so the same bytes
give the same object. The quorum of a branch is a `HashMap`, which `==` compares without its order
and `serde_bare` writes in its iteration order. Two contents that are `==` thus give one object
exactly if their quorums are iterated in the same order (`convergent_iff`).
-/

namespace Lofire

theorem Quorum.ext_entries {q q' : Quorum} (h : q.entries = q'.entries) : q = q' := by
  cases q
  cases q'
  cases h
  rfl

namespace ObjectContent

/-- The entries of the map in the content, if there is one, in iteration order. -/
def quorumEntries : ObjectContent → Option (List (CommitType × UInt32))
  | .commitBody (.branch b) => some b.quorum.entries
  | .commitBody (.addMembers a) => a.quorum.map Quorum.entries
  | _ => none

/-- Contents that are `==` differ in the order of their maps only. -/
theorem eq_of_quorumEntries {c c' : ObjectContent} (h : c ≈ c')
    (hentries : c.quorumEntries = c'.quorumEntries) : c = c' := by
  have h : Same c c' := h
  cases h with
  | refl => rfl
  | @branch b q h =>
    have hq : b.quorum = q := Quorum.ext_entries (Option.some.inj hentries)
    rw [← hq]
  | @addMembers a q q' h =>
    have hq : q = q' := Quorum.ext_entries (Option.some.inj hentries)
    rw [hq]

theorem quorumEntries_toContent (c : ObjectContent) :
    (Reference.ContentWire.of c).toContent.quorumEntries = c.quorumEntries := by
  cases c <;> rfl

end ObjectContent

namespace Object

variable {P : Primitives} {c c' : ObjectContent} {deps : List ObjectId} {expiry : Option Timestamp}
  {blockSize : Nat} {repoPubkey : PubKey} {repoSecret : SymKey} {o o' : Object}

/-- The blocks determine the order of the map. -/
theorem quorumEntries_eq_of_blocks (hP : P.SerdeLaws)
    (hser : P.objectContent = Reference.objectContent)
    (h : new P c deps expiry blockSize repoPubkey repoSecret = some o)
    (h' : new P c' deps expiry blockSize repoPubkey repoSecret = some o')
    (hblocks : o.blocks = o'.blocks) : c.quorumEntries = c'.quorumEntries := by
  obtain ⟨valid, rootDeps, below, root, -, -, hbuilt, -, hdeps⟩ := built_of_new hP h
  obtain ⟨valid', rootDeps', below', root', -, -, hbuilt', -, hdeps'⟩ := built_of_new hP h'
  have hdecode : ∀ c, P.objectContent.fromSlice (P.objectContent.toVec c) =
      some (Reference.ContentWire.of c).toContent := by
    intro c
    rw [hser]
    exact @Reference.decodes_iff (fun _ _ => false) c
  have hcontent := hbuilt.content_eq (hdecode c)
  have hcontent' := hbuilt'.content_eq (hdecode c')
  have hsame : o = o' := by
    cases o
    cases o'
    simp only [Object.mk.injEq]
    exact ⟨hblocks, hdeps.trans hdeps'.symm⟩
  rw [hsame, hcontent', Option.some.injEq, Except.ok.injEq] at hcontent
  rw [← ObjectContent.quorumEntries_toContent c, ← hcontent, ObjectContent.quorumEntries_toContent]

/-- Contents that are `==` give objects with the same root id, root key and blocks exactly if their
maps are iterated in the same order. -/
theorem convergent_iff (hP : P.SerdeLaws) (hser : P.objectContent = Reference.objectContent)
    (hsame : c ≈ c') (h : new P c deps expiry blockSize repoPubkey repoSecret = some o)
    (h' : new P c' deps expiry blockSize repoPubkey repoSecret = some o') :
    (o.id P = o'.id P ∧ o.key = o'.key ∧ o.blocks = o'.blocks) ↔
      c.quorumEntries = c'.quorumEntries := by
  constructor
  · rintro ⟨-, -, hblocks⟩
    exact quorumEntries_eq_of_blocks hP hser h h' hblocks
  · intro hentries
    have hc : c = c' := ObjectContent.eq_of_quorumEntries hsame hentries
    rw [hc, h', Option.some.injEq] at h
    rw [h]
    exact ⟨rfl, rfl, rfl⟩

/-! ## A map with two entries -/

namespace TwoEntries

/-- New members and a quorum, which is iterated in the given order. -/
def members (quorum : Quorum) : ObjectContent := .commitBody (.addMembers ⟨[], some quorum, none⟩)

def quorum : Quorum := ⟨[(.repository, 1), (.addBranch, 2)], by decide⟩

/-- The same map in the other order. -/
def reversed : Quorum := ⟨[(.addBranch, 2), (.repository, 1)], by decide⟩

theorem same : members quorum ≈ members reversed :=
  ObjectContent.Same.addMembers ⟨[], none, none⟩ (.swap _ _ _)

/-- The object of the content. -/
def object (c : ObjectContent) : Option Object :=
  new NineDeps.primitives c [] none 4096 NineDeps.repoPubkey NineDeps.repoSecret

theorem object_isSome (c : ObjectContent) : ∃ o, object c = some o := by
  have hsize : 4096 + HEADER < 2 ^ 64 := by decide
  obtain ⟨o, below, root, hnew, -⟩ := new_spec (P := NineDeps.primitives) Reference.serdeLaws c
    (show ([] : List ObjectId).length ≤ 8 from Nat.zero_le 8) none hsize
    NineDeps.repoPubkey NineDeps.repoSecret
  exact ⟨o, hnew⟩

end TwoEntries

open TwoEntries in
theorem convergent_iff_twoEntries : ∃ o o', object (members quorum) = some o ∧
    object (members reversed) = some o' ∧
      ¬ (o.id NineDeps.primitives = o'.id NineDeps.primitives ∧ o.key = o'.key ∧
        o.blocks = o'.blocks) := by
  obtain ⟨o, ho⟩ := object_isSome (members quorum)
  obtain ⟨o', ho'⟩ := object_isSome (members reversed)
  refine ⟨o, o', ho, ho', fun hobjects => ?_⟩
  exact absurd ((convergent_iff Reference.serdeLaws rfl same ho ho').mp hobjects) (by decide)

open TwoEntries in
/-- The two orders of a quorum with two entries give objects with different root ids. -/
theorem not_convergent :
    ¬ ∀ (c c' : ObjectContent), c ≈ c' → ∀ o o', object c = some o → object c' = some o' →
      o.id NineDeps.primitives = o'.id NineDeps.primitives ∧ o.key = o'.key ∧
      o.blocks = o'.blocks := by
  intro h
  obtain ⟨o, ho⟩ := object_isSome (members quorum)
  obtain ⟨o', ho'⟩ := object_isSome (members reversed)
  have hids : (object (members quorum)).map (Object.id NineDeps.primitives) ≠
      (object (members reversed)).map (Object.id NineDeps.primitives) := by decide +kernel
  rw [ho, ho'] at hids
  exact hids (congrArg some (h _ _ same o o' ho ho').1)

end Object

end Lofire
