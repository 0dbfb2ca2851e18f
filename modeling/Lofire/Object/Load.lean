import Lofire.Object.Tree
import Lofire.Lib.Fuel
import Mathlib.Data.List.ModifyLast

/-!
# Loading an object

A load only reads the store, so on a lawful store it computes what it computes from the store's view
(`load_reads`); the results below are about loads from a view. Loading a tower of nodes that are in
the view returns their blocks in order (`loadTree_tower`).
-/

namespace Lofire

open Lib

namespace Object

variable {P : Primitives}

/-! ## Loading from a view -/

/-- What the store returns for every id. -/
abbrev View := BlockId → Except StorageError Block

/-- `load` from a view. -/
def loadView (P : Primitives) (v : View) (id : ObjectId) (key : Option SymKey) (fuel : Nat) :
    Option (Except ObjectParseError Object) :=
  load (m := Id) P v fuel id key

/-- `x` is in the tree below `id`. -/
def InTree (v : View) (id x : BlockId) : Prop :=
  Relation.ReflTransGen (fun p c => ∃ b, v p = .ok b ∧ c ∈ b.children) id x

/-- The root `id` refers to the object `r` for its dependencies. -/
def Refers (v : View) (id r : ObjectId) : Prop :=
  ∃ b ref, v id = .ok b ∧ b.deps = .depListRef ref ∧ ref.id = r

/-- A load of `id` reads `x`: a block of its tree, of the tree of its dependency list, and so on. -/
def Needs (v : View) (id x : BlockId) : Prop :=
  ∃ r, Relation.ReflTransGen (Refers v) id r ∧ InTree v r x

theorem Needs.of_refers {v : View} {id r x : BlockId} (hr : Refers v id r) (h : Needs v r x) :
    Needs v id x := by
  obtain ⟨r', hpath, hx⟩ := h
  exact ⟨r', .head hr hpath, hx⟩

theorem loadLevel_children {v : View} {parents children : List BlockId} {blocks : List Block}
    {missing : List BlockId} {c : BlockId}
    (h : c ∈ (loadLevel (m := Id) v parents children blocks missing).1) :
    c ∈ children ∨ ∃ p ∈ parents, ∃ b, v p = .ok b ∧ c ∈ b.children := by
  induction parents generalizing children blocks missing with
  | nil => exact .inl h
  | cons p parents ih =>
    simp only [loadLevel, id_bind] at h
    cases hp : v p with
    | ok b =>
      rw [hp] at h
      obtain h | ⟨q, hq, hc⟩ := ih h
      · obtain h | h := List.mem_append.mp h
        · exact .inl h
        · exact .inr ⟨p, List.mem_cons_self, b, hp, List.mem_reverse.mp h⟩
      · exact .inr ⟨q, List.mem_cons_of_mem p hq, hc⟩
    | error e =>
      rw [hp] at h
      obtain h | ⟨q, hq, hc⟩ := ih h
      · exact .inl h
      · exact .inr ⟨q, List.mem_cons_of_mem p hq, hc⟩

/-- Blocks are put in front of those that are loaded already. -/
theorem loadLevel_blocks (v : View) (parents children : List BlockId) (blocks : List Block)
    (missing : List BlockId) :
    ∃ bs, (loadLevel (m := Id) v parents children blocks missing).2.1 = bs ++ blocks := by
  induction parents generalizing children blocks missing with
  | nil => exact ⟨[], rfl⟩
  | cons p parents ih =>
    simp only [loadLevel, id_bind]
    cases v p with
    | ok b =>
      obtain ⟨bs, hbs⟩ := ih (children ++ b.children.reverse) (b :: blocks) missing
      exact ⟨bs ++ [b], by rw [List.append_assoc]; exact hbs⟩
    | error e => exact ih ..

theorem loadTree_blocks {v : View} {fuel : Nat} {parents : List BlockId} {blocks : List Block}
    {missing : List BlockId} {res : List Block × List BlockId}
    (h : loadTree (m := Id) v fuel parents blocks missing = some res) :
    ∃ bs, res.1 = bs ++ blocks := by
  induction fuel generalizing parents blocks missing with
  | zero => cases h
  | succ fuel ih =>
    obtain ⟨bs, hbs⟩ := loadLevel_blocks v parents [] blocks missing
    simp only [loadTree, id_bind] at h
    rcases hlevel : loadLevel (m := Id) v parents [] blocks missing with ⟨children, blocks', miss⟩
    rw [hlevel] at h hbs
    dsimp only at h hbs
    split at h
    · cases h
      exact ⟨bs, hbs⟩
    · obtain ⟨bs', hbs'⟩ := ih h
      exact ⟨bs' ++ bs, by rw [hbs', hbs, List.append_assoc]⟩

theorem loadTree_succ (v : View) (fuel : Nat) (parents : List BlockId) (blocks : List Block)
    (missing : List BlockId) :
    loadTree (m := Id) v (fuel + 1) parents blocks missing =
      if (loadLevel (m := Id) v parents [] blocks missing).1.isEmpty then
        some (loadLevel (m := Id) v parents [] blocks missing).2
      else loadTree (m := Id) v fuel (loadLevel (m := Id) v parents [] blocks missing).1
        (loadLevel (m := Id) v parents [] blocks missing).2.1
        (loadLevel (m := Id) v parents [] blocks missing).2.2 := rfl

/-- The last block of a tree that is loaded without missing blocks is the root. -/
theorem loadTree_root {v : View} {fuel : Nat} {id : BlockId} {blocks : List Block}
    (h : loadTree (m := Id) v fuel [id] [] [] = some (blocks, [])) :
    ∃ b bs, v id = .ok b ∧ blocks = bs ++ [b] := by
  cases fuel with
  | zero => cases h
  | succ fuel =>
    cases hv : v id with
    | error e =>
      have hlevel : loadLevel (m := Id) v [id] [] [] [] = ([], [], [id]) := by
        simp only [loadLevel, id_bind, hv]
        rfl
      rw [loadTree_succ, hlevel] at h
      cases h
    | ok b =>
      have hlevel : loadLevel (m := Id) v [id] [] [] [] = (b.children.reverse, [b], []) := by
        simp only [loadLevel, id_bind, hv]
        rfl
      rw [loadTree_succ, hlevel] at h
      dsimp only at h
      split at h
      · cases h
        exact ⟨b, [], rfl, rfl⟩
      · obtain ⟨bs, hbs⟩ := loadTree_blocks h
        exact ⟨b, bs, rfl, hbs⟩

section Yields

variable {m : Type → Type} [Monad m] (Y : Yields m) {get : BlockId → m (Except StorageError Block)}
  {v : View}

theorem loadLevel_yields {parents : List BlockId} (hget : ∀ p ∈ parents, Y.rel (get p) (v p))
    (children : List BlockId) (blocks : List Block) (missing : List BlockId) :
    Y.rel (loadLevel get parents children blocks missing)
      (loadLevel (m := Id) v parents children blocks missing) := by
  induction parents generalizing children blocks missing with
  | nil => exact Y.pure _
  | cons id parents ih =>
    have ih := ih fun p hp => hget p (List.mem_cons_of_mem id hp)
    refine Y.bind (hget id List.mem_cons_self) ?_
    cases h : v id with
    | ok block =>
      simp only [loadLevel, id_bind, h]
      exact ih ..
    | error e =>
      simp only [loadLevel, id_bind, h]
      exact ih ..

theorem loadTree_yields (fuel : Nat) {parents : List BlockId}
    (hget : ∀ p ∈ parents, ∀ x, InTree v p x → Y.rel (get x) (v x)) (blocks : List Block)
    (missing : List BlockId) :
    Y.rel (loadTree get fuel parents blocks missing)
      (loadTree (m := Id) v fuel parents blocks missing) := by
  induction fuel generalizing parents blocks missing with
  | zero => exact Y.pure _
  | succ fuel ih =>
    refine Y.bind (loadLevel_yields Y (fun p hp => hget p hp p .refl) ..) ?_
    simp only [loadTree, id_bind]
    rcases hlevel : loadLevel (m := Id) v parents [] blocks missing with ⟨children, blocks', miss⟩
    dsimp only
    split
    · exact Y.pure _
    · refine ih (fun c hc x hx => ?_) ..
      have hc : c ∈ (loadLevel (m := Id) v parents [] blocks missing).1 := by rwa [hlevel]
      obtain hc | ⟨p, hp, b, hb, hcb⟩ := loadLevel_children hc
      · cases hc
      · exact hget p hp x (.head ⟨b, hb, hcb⟩ hx)

/-- A load computes what it computes from the view if the reads it needs do. -/
theorem load_yields (fuel : Nat) {id : ObjectId}
    (hget : ∀ x, Needs v id x → Y.rel (get x) (v x)) (key : Option SymKey) :
    Y.rel (load P get fuel id key) (loadView P v id key fuel) := by
  induction fuel generalizing id key with
  | zero => exact Y.pure _
  | succ fuel ih =>
    have htree : ∀ p ∈ [id], ∀ x, InTree v p x → Y.rel (get x) (v x) := by
      intro p hp x hx
      rw [List.mem_singleton.mp hp] at hx
      exact hget x ⟨id, .refl, hx⟩
    refine Y.bind (loadTree_yields Y (fuel + 1) htree ..) ?_
    simp only [loadView, load, id_bind]
    cases hres : loadTree (m := Id) v (fuel + 1) [id] [] [] with
    | none => exact Y.pure _
    | some res =>
      obtain ⟨blocks, missing⟩ := res
      dsimp only
      split
      · exact Y.pure _
      · rename_i hmissing
        have hmissing : missing = [] := by simpa using hmissing
        subst hmissing
        obtain ⟨b, bs, hroot, rfl⟩ := loadTree_root hres
        split
        · exact Y.pure _
        · rename_i root hlast
          have hdeps : root.deps = b.deps := by
            rw [setRootKey, List.modifyLast_concat] at hlast
            split at hlast
            · rw [List.getLast?_concat] at hlast
              cases hlast
              rfl
            · rw [List.getLast?_concat] at hlast
              cases hlast
              rfl
          split
          · exact Y.pure _
          · rename_i ref href
            have hrefers : Refers v id ref.id := ⟨b, ref, hroot, hdeps ▸ href, rfl⟩
            refine Y.bind (ih (fun x hx => hget x (hx.of_refers hrefers)) _) ?_
            simp only [loadView]
            split
            · exact Y.pure _
            · exact Y.pure _
            · split
              · exact Y.pure _
              · exact Y.pure _
              · exact Y.pure _
              · exact Y.pure _

end Yields

/-- What a program returns from a lawful store with enough fuel is what it computes from the
view. -/
theorem returns_iff_of_reads {σ α : Type} {D : Set BlockBody} {S : RepoStore σ}
    {hS : S.Lawful P D} {s : σ}
    (hs : hS.Inv s) {x : Nat → StoreM σ (Option α)} {y : Nat → Option α}
    (hreads : ∀ fuel, hS.Reads (hS.view s) (x fuel) (y fuel)) {a : α} :
    (∃ n, ∀ fuel, n ≤ fuel → ∃ s', x fuel s = .ok (some a) s') ↔ Returns y a := by
  constructor
  · rintro ⟨n, hn⟩
    refine ⟨n, fun fuel hle => ?_⟩
    obtain ⟨s', hrun, -, -⟩ := (hreads fuel).run s hs rfl
    obtain ⟨s'', hrun'⟩ := hn fuel hle
    rw [hrun, EStateM.Result.ok.injEq] at hrun'
    exact hrun'.1
  · rintro ⟨n, hn⟩
    refine ⟨n, fun fuel hle => ?_⟩
    obtain ⟨s', hrun, -, -⟩ := (hreads fuel).run s hs rfl
    rw [hn fuel hle] at hrun
    exact ⟨s', hrun⟩

/-- A load from a lawful store computes what it computes from the view of the store. -/
theorem load_reads {σ : Type} {D : Set BlockBody} {S : RepoStore σ} (hS : S.Lawful P D) (v : View)
    (fuel : Nat) (id : ObjectId) (key : Option SymKey) :
    hS.Reads v (load P S.get fuel id key) (loadView P v id key fuel) :=
  load_yields (hS.yields v) fuel (fun x _ => .get x) key

/-! ## More fuel -/

theorem loadTree_mono (v : View) (parents : List BlockId) (blocks : List Block)
    (missing : List BlockId) :
    FuelMono fun fuel => loadTree (m := Id) v fuel parents blocks missing := by
  intro fuel
  induction fuel generalizing parents blocks missing with
  | zero =>
    intro r h
    cases h
  | succ fuel ih =>
    intro r h
    dsimp only at h ⊢
    rw [loadTree_succ] at h ⊢
    split
    · rename_i hempty
      rwa [if_pos hempty] at h
    · rename_i hempty
      rw [if_neg hempty] at h
      exact ih _ _ _ r h

/-- The dependencies of a loaded root. -/
def loadDeps (P : Primitives) (v : View) (blocks : List Block) (fuel : Nat) :
    Option (Except ObjectParseError Object) :=
  blocks.getLast?.bind fun root =>
    match root.deps with
    | .objectIdList depsVec => some (.ok ⟨blocks, depsVec⟩)
    | .depListRef depsRef =>
      (loadView P v depsRef.id (some depsRef.key) fuel).bind fun
        | .error e => some (.error e)
        | .ok obj =>
          (obj.content P).bind fun
            | .error e => some (.error e)
            | .ok (.depList depsVec) => some (.ok ⟨blocks, depsVec⟩)
            | .ok _ => some (.error .invalidDeps)

/-- The key is set on the root. -/
theorem setRootKey_concat (bs : List Block) (b : Block) (key : Option SymKey) :
    (if key.isSome then setRootKey (bs ++ [b]) key else bs ++ [b]) =
      bs ++ [if key.isSome then b.setKey key else b] := by
  split
  · exact List.modifyLast_concat ..
  · rfl

theorem loadView_succ (v : View) (id : ObjectId) (key : Option SymKey) (fuel : Nat) :
    loadView P v id key (fuel + 1) =
      (loadTree (m := Id) v (fuel + 1) [id] [] []).bind fun res =>
        if !res.2.isEmpty then some (.error (.missingBlocks res.2))
        else loadDeps P v (if key.isSome then setRootKey res.1 key else res.1) fuel := by
  simp only [loadView, load, id_bind]
  cases loadTree (m := Id) v (fuel + 1) [id] [] [] with
  | none => rfl
  | some res =>
    obtain ⟨blocks, missing⟩ := res
    simp only [Option.bind_some, loadDeps]
    split
    · rfl
    · cases (if key.isSome then setRootKey blocks key else blocks).getLast? with
      | none => rfl
      | some root =>
        simp only [Option.bind_some]
        cases root.deps with
        | objectIdList depsVec => rfl
        | depListRef depsRef =>
          simp only [loadView]
          rcases load (m := Id) P v fuel depsRef.id (some depsRef.key) with _ | _ | obj
          · rfl
          · rfl
          · simp only [Option.bind_some]
            rcases obj.content P with _ | _ | c
            · rfl
            · rfl
            · cases c <;> rfl

theorem loadView_mono (v : View) (id : ObjectId) (key : Option SymKey) :
    FuelMono (loadView P v id key) := by
  intro fuel
  induction fuel generalizing id key with
  | zero =>
    intro r h
    cases h
  | succ fuel ih =>
    intro r h
    rw [loadView_succ] at h ⊢
    refine bind_mono (fun res => loadTree_mono v [id] [] [] (fuel + 1) res) (fun res h => ?_) h
    split
    · rename_i hmissing
      rwa [if_pos hmissing] at h
    · rename_i hmissing
      rw [if_neg hmissing] at h
      refine bind_mono (fun _ h => h) (fun root h => ?_) h
      cases hd : root.deps with
      | objectIdList depsVec => rwa [hd] at h
      | depListRef depsRef =>
        rw [hd] at h
        exact bind_mono (ih _ _) (fun _ h => h) h

/-! ## Towers -/

theorem loadLevel_eq {v : View} {ids : List BlockId} {bs : List Block}
    (h : List.Forall₂ (fun id b => v id = .ok b) ids bs) (children : List BlockId)
    (blocks : List Block) (missing : List BlockId) :
    loadLevel (m := Id) v ids children blocks missing =
      (children ++ bs.flatMap (fun b => b.children.reverse), bs.reverse ++ blocks, missing) := by
  induction h generalizing children blocks with
  | nil => simp [loadLevel]; rfl
  | cons hid _ ih =>
    simp only [loadLevel, id_bind, hid]
    rw [ih]
    simp

/-- The view holds a block that shows `n` under the id of `n`. -/
def Holds (v : View) (n : Node P) (b : Block) : Prop := v n.id = .ok b ∧ n.Shows b

theorem ids_reverse {v : View} {top : List (Node P)} {tops : List Block}
    (h : List.Forall₂ (Holds v) top tops) :
    List.Forall₂ (fun id b => v id = .ok b) (top.map Node.id).reverse tops.reverse := by
  refine List.rel_reverse ?_
  rw [List.forall₂_map_left_iff]
  exact h.imp fun _ _ hh => hh.1

/-- Loading a level of a tower gives its blocks and those of the levels below, from the leaves
up. -/
theorem loadTree_tower {v : View} {leaves below top : List (Node P)}
    (hT : Tower P leaves below top) :
    ∀ (lows tops : List Block) (blocks : List Block) (missing : List BlockId) (fuel : Nat),
      List.Forall₂ (Holds v) below lows → List.Forall₂ (Holds v) top tops →
      below.length < fuel →
      loadTree (m := Id) v fuel (top.map Node.id).reverse blocks missing =
        some (lows ++ (tops ++ blocks), missing) := by
  induction hT with
  | leaves _ hleaf =>
    intro lows tops blocks missing fuel hlow htop hfuel
    obtain ⟨fuel, rfl⟩ : ∃ k, fuel = k + 1 := ⟨fuel - 1, by omega⟩
    cases hlow
    rw [loadTree_succ, loadLevel_eq (ids_reverse htop)]
    have hnil : tops.reverse.flatMap (fun b => b.children.reverse) = [] := by
      rw [List.flatMap_eq_nil_iff]
      intro b hb
      obtain ⟨n, hn, hh⟩ := forall₂_mem_right htop (List.mem_reverse.mp hb)
      rw [hh.2.body_eq, (hleaf n hn).2, List.reverse_nil]
    simp [hnil]
  | @parents below mid top groups hT _ hgroups hmid ih =>
    intro lows tops blocks missing fuel hlow htop hfuel
    rw [List.length_append] at hfuel
    obtain ⟨fuel, rfl⟩ : ∃ k, fuel = k + 1 := ⟨fuel - 1, by omega⟩
    have hmidpos : 0 < mid.length := List.length_pos_iff.mpr hT.top_ne_nil
    obtain ⟨lows, mids, hlows, hmids, rfl⟩ := forall₂_append_left hlow
    rw [loadTree_succ, loadLevel_eq (ids_reverse htop)]
    have hchildren : tops.reverse.flatMap (fun b => b.children.reverse) =
        (mid.map Node.id).reverse := by
      rw [← hmid, ← Node.children_flatMap (htop.imp fun _ _ hh => hh.2) hgroups,
        List.reverse_flatMap]
      rfl
    have hne : (mid.map Node.id).reverse.isEmpty = false := by
      simpa using hT.top_ne_nil
    simp only [List.nil_append, hchildren, hne, Bool.false_eq_true, if_false, List.reverse_reverse]
    rw [ih lows mids (tops ++ blocks) missing fuel hlows hmids (by omega)]
    simp

/-- A load whose tree is a tower in the view goes on with the dependencies of the root. -/
theorem loadView_tower_succ {v : View} {leaves below : List (Node P)} {root : Node P}
    (hT : Tower P leaves below [root]) {lows : List Block} {b : Block}
    (hlows : List.Forall₂ (Holds v) below lows) (hroot : Holds v root b) (key : Option SymKey)
    {fuel : Nat} (hfuel : below.length ≤ fuel) :
    loadView P v root.id key (fuel + 1) =
      loadDeps P v (lows ++ [if key.isSome then b.setKey key else b]) fuel := by
  have hload := loadTree_tower hT lows [b] [] [] (fuel + 1) hlows (.cons hroot .nil) (by omega)
  rw [show ([root].map Node.id).reverse = [root.id] from rfl, List.append_nil] at hload
  rw [loadView_succ, hload, Option.bind_some]
  simp only [List.isEmpty_nil, Bool.not_true, Bool.false_eq_true, if_false, setRootKey_concat]

theorem loadDeps_idList {v : View} {lows : List Block} {b : Block} {deps : List ObjectId}
    (h : b.deps = .objectIdList deps) (fuel : Nat) :
    loadDeps P v (lows ++ [b]) fuel = some (.ok ⟨lows ++ [b], deps⟩) := by
  simp only [loadDeps, List.getLast?_concat, Option.bind_some, h]

end Object

end Lofire
