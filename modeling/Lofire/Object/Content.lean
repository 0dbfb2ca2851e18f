import Lofire.Object.Tree

/-!
# Reading the content of an object

`collectLeaves` walks a tower from the root down. On blocks that show the nodes of a tower it
passes every check and returns the leaves and their bytes in order (`collectLeaves_tower`).
-/

namespace Lofire

open Lib

namespace Object

variable {P : Primitives}

/-! ## One level -/

/-- The collected leaves and bytes with more of them. -/
def Collected.append (out : Collected) (leaves : List Block) (data : Bytes) : Collected where
  leaves := out.leaves.map (· ++ leaves)
  objContent := out.objContent.map (· ++ data)

theorem Collected.push_eq_append (out : Collected) (leaf : Block) (chunk : Bytes) :
    out.push leaf chunk = out.append [leaf] chunk := rfl

@[simp] theorem Collected.append_nil (out : Collected) : out.append [] [] = out := by
  cases out with
  | mk leaves objContent => cases leaves <;> cases objContent <;> simp [append]

@[simp] theorem Collected.append_append (out : Collected) (l l' : List Block) (d d' : Bytes) :
    (out.append l d).append l' d' = out.append (l ++ l') (d ++ d') := by
  cases out with
  | mk leaves objContent =>
    cases leaves <;> cases objContent <;> simp [append, List.append_assoc]

/-- The block `b` shows the node `n` and carries its key. -/
structure ShowsKey (n : Node P) (b : Block) : Prop extends n.Shows b where
  key_eq : b.key = some n.key

/-- A level of leaves yields its leaves and their bytes. -/
theorem collectLevel_leaves (blocks : List Block) {top : List (Node P)} {bs : List Block}
    (hshows : List.Forall₂ Node.Shows top bs) :
    ∀ (i : Nat) (children : List (ObjectId × SymKey)) (out : Collected) (rest : List Block),
      (∀ n ∈ top, n.IsLeaf) → blocks.drop i = bs ++ rest →
      ∃ ls, List.Forall₂ ShowsKey top ls ∧
        collectLevel P blocks (top.map Node.ref) i children out =
          some (.ok (children, out.append ls (top.flatMap Node.chunk))) := by
  induction hshows with
  | nil =>
    intro i children out rest _ _
    exact ⟨[], .nil, by simp [collectLevel]⟩
  | @cons n b top bs hb _ ih =>
    intro i children out rest hleaf hdrop
    obtain ⟨hget, hdrop'⟩ := getElem?_of_drop hdrop
    obtain ⟨⟨chunk, hchunk⟩, -⟩ := hleaf n (List.mem_cons_self ..)
    obtain ⟨ls, hls, hrun⟩ := ih (i + 1) children (out.push (b.setKey (some n.key)) chunk) rest
      (fun m hm => hleaf m (List.mem_cons_of_mem _ hm)) hdrop'
    refine ⟨b.setKey (some n.key) :: ls, .cons ⟨hb.setKey _, rfl⟩ hls, ?_⟩
    have hdec := n.decrypts
    rw [hchunk, ← hb.body_eq] at hdec
    simp only [List.map_cons, Node.ref, collectLevel, hget, hb.id_eq, ne_eq, not_true_eq_false,
      if_false, hdec]
    rw [hrun, Collected.push_eq_append, Collected.append_append]
    simp [Node.chunk, hchunk]

/-- A level of parents yields the references of the level below. -/
theorem collectLevel_parents {blocks : List Block} {top : List (Node P)} {bs : List Block}
    (hshows : List.Forall₂ Node.Shows top bs) :
    ∀ (i : Nat) (children : List (ObjectId × SymKey)) (out : Collected) (rest : List Block)
      (groups : List (List (Node P))), List.Forall₂ Node.IsParent top groups →
      blocks.drop i = bs ++ rest →
      collectLevel P blocks (top.map Node.ref) i children out =
        some (.ok (children ++ groups.flatten.map Node.ref, out)) := by
  induction hshows with
  | nil =>
    intro i children out rest groups hgroups _
    cases hgroups
    simp [collectLevel]
  | @cons n b top bs hb _ ih =>
    intro i children out rest groups hgroups hdrop
    cases hgroups with
    | @cons _ group _ groups hparent hgroups =>
      obtain ⟨hget, hdrop'⟩ := getElem?_of_drop hdrop
      have hdec := n.decrypts
      rw [hparent.content_eq, ← hb.body_eq] at hdec
      have hchildren : b.children = group.map Node.id := by
        rw [hb.body_eq, hparent.children_eq]
      have hzip : (group.map Node.id).zip (group.map Node.key) = group.map Node.ref := by
        rw [List.zip_map']
        rfl
      simp only [List.map_cons, Node.ref, collectLevel, hget, hb.id_eq, ne_eq, not_true_eq_false,
        if_false, hdec, hchildren, List.length_map, hzip]
      rw [ih (i + 1) _ out rest groups hgroups hdrop']
      simp

/-! ## The whole tree -/

/-- On blocks that show a tower, `collectLeaves` returns the leaves and their bytes. -/
theorem collectLeaves_tower {leaves below top : List (Node P)} (hT : Tower P leaves below top) :
    ∀ (blocks rest : List Block) (bs : List Block) (fuel : Nat) (out : Collected),
      List.Forall₂ Node.Shows (below ++ top) bs → blocks = bs ++ rest → below.length < fuel →
      ∃ ls, List.Forall₂ ShowsKey leaves ls ∧
        collectLeaves P blocks fuel (top.map Node.ref) below.length out =
          some (.ok (out.append ls (leaves.flatMap Node.chunk))) := by
  induction hT with
  | leaves _ hleaf =>
    intro blocks rest bs fuel out hshows hblocks hfuel
    obtain ⟨fuel, rfl⟩ : ∃ k, fuel = k + 1 := ⟨fuel - 1, by omega⟩
    obtain ⟨ls, hls, hrun⟩ := collectLevel_leaves blocks hshows 0 [] out rest hleaf
      (by simpa using hblocks)
    rw [List.nil_append] at hls hrun
    exact ⟨ls, hls, by simp only [collectLeaves, List.length_nil, hrun, List.isEmpty_nil, if_true]⟩
  | @parents below mid top groups hT _ hgroups hmid ih =>
    intro blocks rest bs fuel out hshows hblocks hfuel
    rw [List.length_append] at hfuel
    obtain ⟨fuel, rfl⟩ : ∃ k, fuel = k + 1 := ⟨fuel - 1, by omega⟩
    have hmidpos : 0 < mid.length := List.length_pos_iff.mpr hT.top_ne_nil
    -- the blocks of this level and the blocks below it
    obtain ⟨low, high, hlow, hhigh, rfl⟩ := forall₂_append_left hshows
    have hdrop : blocks.drop (below ++ mid).length = high ++ rest := by
      rw [hblocks, List.append_assoc, hlow.length_eq, List.drop_left]
    obtain ⟨ls, hls, hrun⟩ := ih blocks (high ++ rest) low fuel out hlow
      (by rw [hblocks, List.append_assoc]) (by omega)
    refine ⟨ls, hls, ?_⟩
    have hlevel := collectLevel_parents hhigh _ [] out rest groups hgroups hdrop
    rw [List.nil_append, hmid, List.length_append] at hlevel
    have hne : (mid.map Node.ref).isEmpty = false := by
      simpa using hT.top_ne_nil
    simp only [collectLeaves, hlevel, hne, List.length_map, List.length_append, Bool.false_eq_true,
      if_false]
    rw [if_neg (by omega), Nat.add_sub_cancel, hrun]

/-- The content of an object whose blocks show a tower with a root key. -/
theorem content_of_tower {o : Object} {leaves below : List (Node P)} {root : Node P}
    (hT : Tower P leaves below [root])
    (hshows : List.Forall₂ Node.Shows (below ++ [root]) o.blocks)
    (hkey : o.key = some (some root.key)) :
    o.content P =
      match P.objectContent.fromSlice (leaves.flatMap Node.chunk) with
      | none => some (.error .objectDeserializeError)
      | some c => some (.ok c) := by
  have hlen : o.blocks.length = below.length + 1 := by
    rw [← hshows.length_eq, List.length_append, List.length_singleton]
  obtain ⟨low, high, hlow, hhigh, hblocks⟩ := forall₂_append_left hshows
  obtain ⟨b, rfl⟩ : ∃ b, high = [b] :=
    List.length_eq_one_iff.mp (by rw [← hhigh.length_eq, List.length_singleton])
  have hroot : root.Shows b := by
    cases hhigh with
    | cons h _ => exact h
  have hid : o.id P = some root.id := by
    simp [Object.id, Object.root, hblocks, hroot.id_eq]
  obtain ⟨ls, -, hrun⟩ := collectLeaves_tower hT o.blocks [] o.blocks o.blocks.length
    ⟨none, some []⟩ hshows (by simp) (by omega)
  have hrun' : collectLeaves P o.blocks o.blocks.length [(root.id, root.key)]
      (o.blocks.length - 1) ⟨none, some []⟩ =
        some (.ok ⟨none, some (leaves.flatMap Node.chunk)⟩) := by
    rw [hlen, Nat.add_sub_cancel, ← hlen]
    exact hrun
  cases hc : P.objectContent.fromSlice (leaves.flatMap Node.chunk) with
  | none => simp [content, hkey, hid, hrun', hc]
  | some c => simp [content, hkey, hid, hrun', hc]

/-- The blocks that `new` makes show their nodes. -/
theorem shows_map_made (nodes : List (Node P)) :
    List.Forall₂ Node.Shows nodes (nodes.map Node.made) := by
  rw [List.forall₂_map_right_iff, List.forall₂_same]
  exact fun n _ => n.shows_made

/-- A created object reads back what `serde_bare` makes of its bytes. -/
theorem Built.content_eq {o : Object} {data : Bytes} {rootDeps : ObjectDeps}
    {expiry : Option Timestamp} {below : List (Node P)} {root : Node P}
    (h : o.Built data rootDeps expiry below root) {c : ObjectContent}
    (hc : P.objectContent.fromSlice data = some c) : o.content P = some (.ok c) := by
  obtain ⟨leaves, hT, hdata⟩ := h.tower
  have hshows : List.Forall₂ Node.Shows (below ++ [root]) o.blocks := by
    rw [h.blocks_eq]
    exact shows_map_made _
  rw [content_of_tower hT hshows h.key_eq, hdata, hc]

end Object

end Lofire
