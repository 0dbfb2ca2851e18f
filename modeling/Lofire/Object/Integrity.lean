import Lofire.Object.Content
import Lofire.Reference

/-!
# An object reference binds its content

Two objects with arbitrary blocks but the same root id and the same root key have the same content,
if they have one at all. Both runs of `collectLeaves` check every block against an id that the root
fixes, and decrypt it with a key that the root fixes: level by level the two runs see the same
bodies, wherever the blocks sit in the two objects.
-/

namespace Lofire

namespace Object

variable {P : Primitives}

/-- What a successful step of `collectLevel` has checked and found. -/
theorem collectLevel_cons_ok {blocks : List Block} {id : ObjectId} {key : SymKey}
    {parents : List (ObjectId × SymKey)} {i : Nat} {children : List (ObjectId × SymKey)}
    {out : Collected} {res : List (ObjectId × SymKey) × Collected}
    (h : collectLevel P blocks ((id, key) :: parents) i children out = some (.ok res)) :
    ∃ block ∈ blocks, block.id P = id ∧
      ((∃ keys, P.blockContent.fromSlice (P.applyKeystream key.slice block.content) =
            some (.internalNode keys) ∧
          collectLevel P blocks parents (i + 1) (children ++ block.children.zip keys) out =
            some (.ok res)) ∨
        ∃ chunk, P.blockContent.fromSlice (P.applyKeystream key.slice block.content) =
            some (.dataChunk chunk) ∧
          collectLevel P blocks parents (i + 1) children
            (out.push (block.setKey (some key)) chunk) = some (.ok res)) := by
  rw [collectLevel] at h
  cases hb : blocks[i]? with
  | none =>
    rw [hb] at h
    cases h
  | some block =>
    simp only [hb] at h
    refine ⟨block, List.mem_of_getElem? hb, ?_⟩
    split at h
    · cases h
    · rename_i hid
      refine ⟨(not_not.mp hid).symm, ?_⟩
      split at h
      · cases h
      · rename_i keys hdec
        split at h
        · cases h
        · exact .inl ⟨keys, hdec, h⟩
      · rename_i chunk hdec
        exact .inr ⟨chunk, hdec, h⟩

/-- Two successful runs over one level of references find the same children and bytes. -/
theorem collectLevel_unique {D : Set BlockBody} (hD : P.NoCollision D) {bs bs' : List Block}
    (hbs : ∀ b ∈ bs, b.Valid P ∧ b.toBlockBody ∈ D)
    (hbs' : ∀ b ∈ bs', b.Valid P ∧ b.toBlockBody ∈ D) :
    ∀ (parents : List (ObjectId × SymKey)) (i i' : Nat) (children : List (ObjectId × SymKey))
      (out out' : Collected) (res res' : List (ObjectId × SymKey) × Collected),
      out.objContent = out'.objContent →
      collectLevel P bs parents i children out = some (.ok res) →
      collectLevel P bs' parents i' children out' = some (.ok res') →
      res.1 = res'.1 ∧ res.2.objContent = res'.2.objContent := by
  intro parents
  induction parents with
  | nil =>
    intro i i' children out out' res res' hout h h'
    cases h
    cases h'
    exact ⟨rfl, hout⟩
  | cons ref parents ih =>
    obtain ⟨id, key⟩ := ref
    intro i i' children out out' res res' hout h h'
    obtain ⟨b, hb, hid, hcase⟩ := collectLevel_cons_ok h
    obtain ⟨b', hb', hid', hcase'⟩ := collectLevel_cons_ok h'
    -- the two blocks have one id, so they have one body
    obtain ⟨hv, hbD⟩ := hbs b hb
    obtain ⟨hv', hbD'⟩ := hbs' b' hb'
    have hbody : b.toBlockBody = b'.toBlockBody := by
      apply hD hbD hbD'
      rw [← hv.id_eq, ← hv'.id_eq, hid, hid']
    rw [hbody] at hcase
    rcases hcase with ⟨keys, hdec, hrest⟩ | ⟨chunk, hdec, hrest⟩
    · rcases hcase' with ⟨keys', hdec', hrest'⟩ | ⟨chunk', hdec', -⟩
      · rw [hdec] at hdec'
        cases hdec'
        exact ih _ _ _ _ _ _ _ hout hrest hrest'
      · rw [hdec] at hdec'
        cases hdec'
    · rcases hcase' with ⟨keys', hdec', -⟩ | ⟨chunk', hdec', hrest'⟩
      · rw [hdec] at hdec'
        cases hdec'
      · rw [hdec] at hdec'
        cases hdec'
        refine ih _ _ _ _ _ _ _ ?_ hrest hrest'
        simp only [Collected.push, hout]

/-- What a successful run of `collectLeaves` has computed. -/
theorem collectLeaves_succ_ok {blocks : List Block} {fuel : Nat}
    {parents : List (ObjectId × SymKey)} {parentIndex : Nat} {out res : Collected}
    (h : collectLeaves P blocks (fuel + 1) parents parentIndex out = some (.ok res)) :
    ∃ children mid, collectLevel P blocks parents parentIndex [] out = some (.ok (children, mid)) ∧
      ((children = [] ∧ res = mid) ∨
        (children ≠ [] ∧ collectLeaves P blocks fuel children (parentIndex - children.length) mid =
          some (.ok res))) := by
  rw [collectLeaves] at h
  split at h
  · cases h
  · cases h
  · rename_i children mid hlevel
    refine ⟨children, mid, hlevel, ?_⟩
    split at h
    · rename_i hnil
      cases h
      exact .inl ⟨List.isEmpty_iff.mp hnil, rfl⟩
    · rename_i hnil
      split at h
      · cases h
      · exact .inr ⟨fun h0 => hnil (List.isEmpty_iff.mpr h0), h⟩

/-- Two successful runs from the same references collect the same bytes. -/
theorem collectLeaves_unique {D : Set BlockBody} (hD : P.NoCollision D) {bs bs' : List Block}
    (hbs : ∀ b ∈ bs, b.Valid P ∧ b.toBlockBody ∈ D)
    (hbs' : ∀ b ∈ bs', b.Valid P ∧ b.toBlockBody ∈ D) :
    ∀ (fuel fuel' : Nat) (parents : List (ObjectId × SymKey)) (i i' : Nat)
      (out out' res res' : Collected), out.objContent = out'.objContent →
      collectLeaves P bs fuel parents i out = some (.ok res) →
      collectLeaves P bs' fuel' parents i' out' = some (.ok res') →
      res.objContent = res'.objContent := by
  intro fuel
  induction fuel with
  | zero =>
    intro fuel' parents i i' out out' res res' _ h _
    cases h
  | succ fuel ih =>
    intro fuel' parents i i' out out' res res' hout h h'
    cases fuel' with
    | zero => cases h'
    | succ fuel' =>
      obtain ⟨children, mid, hlevel, hcase⟩ := collectLeaves_succ_ok h
      obtain ⟨children', mid', hlevel', hcase'⟩ := collectLeaves_succ_ok h'
      obtain ⟨hch, hmid⟩ :=
        collectLevel_unique hD hbs hbs' parents i i' [] out out' _ _ hout hlevel hlevel'
      simp only at hch hmid
      subst hch
      rcases hcase with ⟨hnil, rfl⟩ | ⟨hne, hrest⟩
      · rcases hcase' with ⟨-, rfl⟩ | ⟨hne', -⟩
        · exact hmid
        · exact absurd hnil hne'
      · rcases hcase' with ⟨hnil', -⟩ | ⟨-, hrest'⟩
        · exact absurd hnil' hne
        · exact ih _ _ _ _ _ _ _ _ hmid hrest hrest'

/-- What a successful `content` has computed. -/
theorem content_ok {o : Object} {c : ObjectContent} (h : o.content P = some (.ok c)) :
    ∃ id key out, o.id P = some id ∧ o.key = some (some key) ∧
      collectLeaves P o.blocks o.blocks.length [(id, key)] (o.blocks.length - 1) ⟨none, some []⟩ =
        some (.ok out) ∧
      P.objectContent.fromSlice (out.objContent.getD []) = some c := by
  unfold content at h
  split at h
  · cases h
  · cases h
  · rename_i key hkey
    split at h
    · cases h
    · rename_i id hid
      split at h
      · cases h
      · cases h
      · rename_i out hrun
        split at h
        · cases h
        · rename_i c' hc
          cases h
          exact ⟨id, key, out, hid, hkey, hrun, hc⟩

/-- Merkle integrity: the root id and the root key of an object determine its content, whatever its
blocks are. -/
theorem content_unique {o₁ o₂ : Object} {D : Set BlockBody} (hD : P.NoCollision D)
    (h₁ : ∀ b ∈ o₁.blocks, b.Valid P ∧ b.toBlockBody ∈ D)
    (h₂ : ∀ b ∈ o₂.blocks, b.Valid P ∧ b.toBlockBody ∈ D)
    (hid : o₁.id P = o₂.id P) (hkey : o₁.key = o₂.key) {c₁ c₂ : ObjectContent}
    (hc₁ : o₁.content P = some (.ok c₁)) (hc₂ : o₂.content P = some (.ok c₂)) : c₁ = c₂ := by
  obtain ⟨id₁, key₁, out₁, hid₁, hkey₁, hrun₁, hdec₁⟩ := content_ok hc₁
  obtain ⟨id₂, key₂, out₂, hid₂, hkey₂, hrun₂, hdec₂⟩ := content_ok hc₂
  rw [hid, hid₂] at hid₁
  rw [hkey, hkey₂] at hkey₁
  cases hid₁
  cases hkey₁
  have hbytes : out₁.objContent = out₂.objContent :=
    collectLeaves_unique hD h₁ h₂ _ _ _ _ _ _ _ _ _ rfl hrun₁ hrun₂
  rw [hbytes, hdec₂] at hdec₁
  exact (Option.some.inj hdec₁).symm

/-- The block of a file, with its id cached and without. -/
theorem content_unique_file :
    ∃ (o₁ o₂ : Object) (c₁ c₂ : ObjectContent), o₁ ≠ o₂ ∧
      o₁.content (reference fun _ _ => false) = some (.ok c₁) ∧
      o₂.content (reference fun _ _ => false) = some (.ok c₂) ∧ c₁ = c₂ := by
  let P := reference fun _ _ => false
  let c : ObjectContent := .file ⟨[116], [], [104, 105]⟩
  let root : Node P := makeNode Reference.serdeLaws (.replicate 32 1)
    (.dataChunk (P.objectContent.toVec c)) [] (.objectIdList []) none
  have hT : Tower P [root] [] [root] :=
    .leaves (List.cons_ne_nil _ _) (by simpa using ⟨⟨_, rfl⟩, rfl⟩)
  have hdata : [root].flatMap Node.chunk = P.objectContent.toVec c := by
    simp [root, makeNode, Node.chunk]
  have hcontent : ∀ o : Object, List.Forall₂ Node.Shows [root] o.blocks →
      o.key = some (some root.key) → o.content P = some (.ok c) := by
    intro o hshows hkey
    rw [content_of_tower hT hshows hkey, hdata, Reference.decodes_iff]
    rfl
  let o₁ : Object := ⟨[root.made], []⟩
  let o₂ : Object := ⟨[{ root.made with id? := none }], []⟩
  have h₁ : o₁.content P = some (.ok c) := hcontent o₁ (.cons root.shows_made .nil) rfl
  have h₂ : o₂.content P = some (.ok c) := hcontent o₂ (.cons ⟨rfl, rfl⟩ .nil) rfl
  have hbs : ∀ b ∈ o₁.blocks ++ o₂.blocks, b.Valid P ∧ b.toBlockBody ∈ ({root.body} : Set _) := by
    simp [o₁, o₂, Node.made_valid]
    rfl
  refine ⟨o₁, o₂, c, c, by simp [o₁, o₂, Node.made], h₁, h₂, ?_⟩
  exact content_unique (P.noCollision_singleton root.body)
    (fun b hb => hbs b (List.mem_append_left _ hb)) (fun b hb => hbs b (List.mem_append_right _ hb))
    rfl rfl h₁ h₂

end Object

end Lofire
