import Lofire.Object.Content
import Lofire.Object.Load
import Lofire.Reference

/-!
# Saving and loading an object

`save` puts every block of an object in the store, one block for each id. As ids do not collide,
every position of the object's tree finds its block again, and the load of a created and saved
object gives back its blocks, its dependencies and its content (`load_save`).
-/

namespace Lofire

open Lib

namespace Object

variable {P : Primitives}

/-! ## Saving -/

/-- The view holds a valid block with this body under the body's id. -/
def Stored (P : Primitives) (v : View) (body : BlockBody) : Prop :=
  ∃ b, v (P.blockId body) = .ok b ∧ b.toBlockBody = body ∧ b.Valid P

section Store

variable {σ : Type} {D : Set BlockBody} {S : RepoStore σ} (hS : S.Lawful P D)

include hS in
/-- A put stores its block and keeps the blocks of `D` that are stored. -/
theorem put_stored (hD : P.NoCollision D) {s : σ} (hs : hS.Inv s) {b : Block} (hb : b.Valid P)
    (hbD : b.toBlockBody ∈ D) :
    ∃ s', S.put b s = .ok (.ok (b.id P)) s' ∧ hS.Inv s' ∧ Stored P (hS.view s') b.toBlockBody ∧
      (∀ body ∈ D, Stored P (hS.view s) body → Stored P (hS.view s') body) ∧
      ∀ id, id ≠ b.id P → hS.view s' id = hS.view s id := by
  obtain ⟨s', b', hrun, hs', hview, hbody, hvalid⟩ := hS.put_view b s hs hb hbD
  have hstored : Stored P (hS.view s') b.toBlockBody := by
    refine ⟨b', ?_, hbody, hvalid⟩
    rw [hview, ← hb.id_eq, Function.update_self]
  refine ⟨s', hrun, hs', hstored, ?_, fun id hid => by rw [hview, Function.update_of_ne hid]⟩
  intro body hbodyD hold
  by_cases hid : P.blockId body = b.id P
  · rw [hb.id_eq] at hid
    rw [hD hbodyD hbD hid]
    exact hstored
  · obtain ⟨b₀, hget, hrest⟩ := hold
    refine ⟨b₀, ?_, hrest⟩
    rw [hview, Function.update_of_ne hid, hget]

include hS in
/-- The loop of `save`: every id in `deduplicated` is the id of a stored block. -/
theorem forDistinct_put (hD : P.NoCollision D) :
    ∀ (blocks : List Block) (deduplicated : List BlockId) (s : σ), hS.Inv s →
      (∀ b ∈ blocks, b.Valid P ∧ b.toBlockBody ∈ D) →
      (∀ id ∈ deduplicated, ∃ body ∈ D, P.blockId body = id ∧ Stored P (hS.view s) body) →
      ∃ s', forDistinct (m := StoreM σ) P (fun block => do return (← S.put block).map fun _ => ())
          blocks deduplicated s = .ok (.ok ()) s' ∧ hS.Inv s' ∧
        (∀ b ∈ blocks, Stored P (hS.view s') b.toBlockBody) ∧
        (∀ body ∈ D, Stored P (hS.view s) body → Stored P (hS.view s') body) ∧
        ∀ id, id ∉ blocks.map (Block.id P) → hS.view s' id = hS.view s id := by
  intro blocks
  induction blocks with
  | nil =>
    intro _ s hs _ _
    exact ⟨s, rfl, hs, by simp, fun _ _ h => h, fun _ _ => rfl⟩
  | cons b blocks ih =>
    intro deduplicated s hs hblocks hdedup
    obtain ⟨hb, hbD⟩ := hblocks b (List.mem_cons_self ..)
    have htail : ∀ b ∈ blocks, b.Valid P ∧ b.toBlockBody ∈ D := fun b hb =>
      hblocks b (List.mem_cons_of_mem _ hb)
    by_cases hid : b.id P ∈ deduplicated
    · -- a block with this id was put before: it is the same block
      obtain ⟨s', hrun, hs', hall, hkeep, hframe⟩ := ih deduplicated s hs htail hdedup
      refine ⟨s', ?_, hs', ?_, hkeep, fun id hnot => hframe id fun h =>
        hnot (List.mem_cons_of_mem _ h)⟩
      · rw [forDistinct, if_pos hid]
        exact hrun
      · intro b' hb'
        rcases List.mem_cons.mp hb' with rfl | hb'
        · obtain ⟨body, hbody, hbid, hstored⟩ := hdedup _ hid
          rw [hb.id_eq] at hbid
          rw [hD hbody hbD hbid] at hstored
          exact hkeep _ hbD hstored
        · exact hall b' hb'
    · obtain ⟨s₁, hput, hs₁, hstored, hkeep₁, hframe₁⟩ := put_stored hS hD hs hb hbD
      have hdedup₁ : ∀ id ∈ b.id P :: deduplicated,
          ∃ body ∈ D, P.blockId body = id ∧ Stored P (hS.view s₁) body := by
        intro id hmem
        rcases List.mem_cons.mp hmem with rfl | hmem
        · exact ⟨_, hbD, hb.id_eq.symm, hstored⟩
        · obtain ⟨body, hbody, hbid, hold⟩ := hdedup id hmem
          exact ⟨body, hbody, hbid, hkeep₁ body hbody hold⟩
      obtain ⟨s', hrun, hs', hall, hkeep, hframe⟩ := ih _ s₁ hs₁ htail hdedup₁
      refine ⟨s', ?_, hs', ?_, fun body hbody h => hkeep body hbody (hkeep₁ body hbody h), ?_⟩
      · rw [forDistinct, if_neg hid]
        show EStateM.bind (EStateM.bind (S.put b) _) _ s = _
        simp only [EStateM.bind, hput]
        exact hrun
      · intro b' hb'
        rcases List.mem_cons.mp hb' with rfl | hb'
        · exact hkeep _ hbD hstored
        · exact hall b' hb'
      · intro id hnot
        rw [List.map_cons, List.mem_cons, not_or] at hnot
        rw [hframe id hnot.2, hframe₁ id hnot.1]

include hS in
/-- After `save` every block of the object is stored, and no other id is changed. -/
theorem save_spec (hD : P.NoCollision D) {s : σ} (hs : hS.Inv s) {o : Object}
    (ho : ∀ b ∈ o.blocks, b.Valid P ∧ b.toBlockBody ∈ D) :
    ∃ s', save P S.put o s = .ok (.ok ()) s' ∧ hS.Inv s' ∧
      (∀ b ∈ o.blocks, Stored P (hS.view s') b.toBlockBody) ∧
      ∀ id, id ∉ o.blocks.map (Block.id P) → hS.view s' id = hS.view s id := by
  obtain ⟨s', hrun, hs', hall, -, hframe⟩ := forDistinct_put hS hD o.blocks [] s hs ho (by simp)
  exact ⟨s', hrun, hs', hall, hframe⟩

end Store

/-! ## Loading what is stored -/

/-- `load` from the store in state `s` returns `res`. -/
def LoadsFrom {σ : Type} (P : Primitives) (S : RepoStore σ) (s : σ) (id : ObjectId)
    (key : Option SymKey) (res : Except ObjectParseError Object) : Prop :=
  ∃ n, ∀ fuel, n ≤ fuel → ∃ s', load P S.get fuel id key s = .ok (some res) s'

/-- A load from a lawful store is a load from its view. -/
theorem loadsFrom_iff {σ : Type} {D : Set BlockBody} {S : RepoStore σ} (hS : S.Lawful P D)
    {s : σ} (hs : hS.Inv s) {id : ObjectId} {key : Option SymKey}
    {res : Except ObjectParseError Object} :
    LoadsFrom P S s id key res ↔ Returns (loadView P (hS.view s) id key) res :=
  returns_iff_of_reads hs fun fuel => load_reads hS (hS.view s) fuel id key

theorem exists_holds {v : View} {nodes : List (Node P)} (h : ∀ n ∈ nodes, Stored P v n.body) :
    ∃ bs, List.Forall₂ (Holds v) nodes bs := by
  induction nodes with
  | nil => exact ⟨[], .nil⟩
  | cons n nodes ih =>
    obtain ⟨bs, hbs⟩ := ih fun m hm => h m (List.mem_cons_of_mem _ hm)
    obtain ⟨b, hget, hbody, hvalid⟩ := h n (List.mem_cons_self ..)
    exact ⟨b :: bs, .cons ⟨hget, hbody, hvalid⟩ hbs⟩

/-- The blocks of a created object, as found in the view. -/
theorem Built.exists_blocks {o : Object} {data : Bytes} {rootDeps : ObjectDeps}
    {expiry : Option Timestamp} {below : List (Node P)} {root : Node P}
    (h : o.Built data rootDeps expiry below root) {v : View}
    (hv : ∀ b ∈ o.blocks, Stored P v b.toBlockBody) :
    ∃ lows b, List.Forall₂ (Holds v) below lows ∧ Holds v root b := by
  have hstored : ∀ n ∈ below ++ [root], Stored P v n.body := fun n hn =>
    hv n.made (h.mem_blocks.mpr ⟨n, hn, rfl⟩)
  obtain ⟨lows, hlows⟩ := exists_holds fun n hn => hstored n (List.mem_append_left _ hn)
  obtain ⟨b, hget, hbody, hvalid⟩ := hstored root (by simp)
  exact ⟨lows, b, hlows, hget, hbody, hvalid⟩

/-- A created object whose blocks are in the view is loaded with or without its key: the loaded
blocks show its nodes. -/
theorem Built.load_shows {o : Object} {data : Bytes} {deps : List ObjectId}
    {expiry : Option Timestamp} {below : List (Node P)} {root : Node P}
    (h : o.Built data (.objectIdList deps) expiry below root) {v : View}
    (hv : ∀ b ∈ o.blocks, Stored P v b.toBlockBody) (key : Option SymKey) :
    ∃ lows b, List.Forall₂ Node.Shows below lows ∧ root.Shows b ∧
      Returns (loadView P v root.id key)
        (.ok ⟨lows ++ [if key.isSome then b.setKey key else b], deps⟩) := by
  obtain ⟨lows, b, hlows, hroot⟩ := h.exists_blocks hv
  obtain ⟨leaves, hT, -⟩ := h.tower
  have hdeps : (if key.isSome then b.setKey key else b).deps = .objectIdList deps := by
    rw [← h.root_deps, ← hroot.2.body_eq]
    split <;> rfl
  refine ⟨lows, b, hlows.imp fun _ _ hh => hh.2, hroot.2,
    (loadView_mono v root.id _).returns (n := below.length + 1) ?_⟩
  rw [loadView_tower_succ hT hlows hroot key (Nat.le_refl _)]
  exact loadDeps_idList hdeps _

/-- Blocks that show the nodes of a created object have its content, once the root carries the
key. -/
theorem Built.content_shows {o : Object} {data : Bytes} {rootDeps : ObjectDeps}
    {expiry : Option Timestamp} {below : List (Node P)} {root : Node P}
    (h : o.Built data rootDeps expiry below root) {lows : List Block} {b : Block}
    (hlows : List.Forall₂ Node.Shows below lows) (hroot : root.Shows b) (deps : List ObjectId)
    {c : ObjectContent} (hc : P.objectContent.fromSlice data = some c) :
    (⟨lows ++ [b.setKey (some root.key)], deps⟩ : Object).content P = some (.ok c) := by
  obtain ⟨leaves, hT, hdata⟩ := h.tower
  have hshows : List.Forall₂ Node.Shows (below ++ [root]) (lows ++ [b.setKey (some root.key)]) :=
    List.rel_append hlows (.cons (hroot.setKey _) .nil)
  rw [content_of_tower hT hshows (by simp [key, Object.root]), hdata, hc]

/-- The ids of such blocks are those of the object. -/
theorem Built.ids_shows {o : Object} {data : Bytes} {rootDeps : ObjectDeps}
    {expiry : Option Timestamp} {below : List (Node P)} {root : Node P}
    (h : o.Built data rootDeps expiry below root) {bs : List Block}
    (hbs : List.Forall₂ Node.Shows (below ++ [root]) bs) :
    bs.map (Block.id P) = o.blocks.map (Block.id P) := by
  rw [h.blocks_eq, Node.map_id_of_shows hbs, Node.map_id_of_shows (shows_map_made _)]

/-- A created object whose blocks are in the view is loaded with its ids, dependencies and bytes. -/
theorem Built.load {o : Object} {data : Bytes} {deps : List ObjectId}
    {expiry : Option Timestamp} {below : List (Node P)} {root : Node P}
    (h : o.Built data (.objectIdList deps) expiry below root) {v : View}
    (hv : ∀ b ∈ o.blocks, Stored P v b.toBlockBody) :
    ∃ o2, Returns (loadView P v root.id (some root.key)) (.ok o2) ∧
      o2.blocks.map (Block.id P) = o.blocks.map (Block.id P) ∧ o2.deps = deps ∧
      ∀ c, P.objectContent.fromSlice data = some c → o2.content P = some (.ok c) := by
  obtain ⟨lows, b, hlows, hroot, hload⟩ := h.load_shows hv (some root.key)
  exact ⟨_, hload, h.ids_shows (List.rel_append hlows (.cons (hroot.setKey _) .nil)), rfl,
    fun c hc => h.content_shows hlows hroot deps hc⟩

/-- The object store round trip. An object created with at most 8 dependencies and saved is loaded
by its id and key from any prior content of the store with the same block ids, the same
dependencies and the same content. -/
theorem load_save (hP : P.SerdeLaws) {c : ObjectContent} (hc : P.Decodes c)
    {deps : List ObjectId} (hdeps : deps.length ≤ 8) (expiry : Option Timestamp) {blockSize : Nat}
    (hsize : blockSize < 2 ^ 32) (repoPubkey : PubKey) (repoSecret : SymKey) :
    ∃ o, new P c deps expiry blockSize repoPubkey repoSecret = some o ∧
      ∀ {D : Set BlockBody}, P.NoCollision D → (∀ b ∈ o.blocks, b.toBlockBody ∈ D) →
      ∀ {σ : Type} {S : RepoStore σ} (hS : S.Lawful P D) (s : σ), hS.Inv s →
      ∃ s' id key c' o2, save P S.put o s = .ok (.ok ()) s' ∧
        o.id P = some id ∧ o.key = some key ∧ LoadsFrom P S s' id key (.ok o2) ∧
        o2.blocks.map (Block.id P) = o.blocks.map (Block.id P) ∧ o2.deps = deps ∧
        c' ≈ c ∧ o.content P = some (.ok c') ∧ o2.content P = some (.ok c') := by
  obtain ⟨o, below, root, hnew, hbuilt, -⟩ :=
    new_spec hP c hdeps expiry (add_header_lt hsize) repoPubkey repoSecret
  refine ⟨o, hnew, ?_⟩
  intro D hD hoD σ S hS s hs
  obtain ⟨s', hsave, hs', hstored, -⟩ :=
    save_spec hS hD hs fun b hb => ⟨hbuilt.valid hb, hoD b hb⟩
  obtain ⟨o2, hload, hids, hdeps2, hcontent⟩ := hbuilt.load hstored
  obtain ⟨c', hdec, hsame⟩ := hc
  exact ⟨s', root.id, some root.key, c', o2, hsave, hbuilt.id_eq, hbuilt.key_eq,
    (loadsFrom_iff hS hs').mpr hload, hids, hdeps2, hsame, hbuilt.content_eq hdec, hcontent c' hdec⟩

/-- A file saved in an empty hash map. -/
theorem load_save_file :
    ∃ o s' id key c' o2,
      new (reference fun _ _ => false) (.file ⟨[116], [], [104, 105]⟩) [⟨.replicate 32 7⟩] (some 9)
        4096 ⟨.replicate 32 1⟩ ⟨.replicate 32 2⟩ = some o ∧
      save (reference fun _ _ => false) (HashMapRepoStore.put (reference fun _ _ => false)) o
        HashMapRepoStore.new = .ok (.ok ()) s' ∧
      LoadsFrom (reference fun _ _ => false)
        (HashMapRepoStore.repoStore (reference fun _ _ => false) 0) s' id key (.ok o2) ∧
      o2.deps = [⟨.replicate 32 7⟩] ∧ c' ≈ .file ⟨[116], [], [104, 105]⟩ ∧
      o2.content (reference fun _ _ => false) = some (.ok c') := by
  have hsingle := new_single (P := reference fun _ _ => false) (.file ⟨[116], [], [104, 105]⟩)
    [⟨.replicate 32 7⟩] (show storeValidValueSize 4096 = some 8168 by decide) (by decide)
    (by decide) (some 9) ⟨.replicate 32 1⟩ ⟨.replicate 32 2⟩
  obtain ⟨o, hnew, hsaved⟩ := load_save (P := reference fun _ _ => false) Reference.serdeLaws
    (c := .file ⟨[116], [], [104, 105]⟩) (Reference.decodes rfl)
    (show [⟨.replicate 32 7⟩].length ≤ 8 by decide) (some 9) (show 4096 < 2 ^ 32 by decide)
    ⟨.replicate 32 1⟩ ⟨.replicate 32 2⟩
  have ho := hnew.symm.trans hsingle
  rw [Option.some.injEq] at ho
  obtain ⟨s', id, key, c', o2, hsave, -, -, hload, -, hdeps, hsame, -, hcontent⟩ :=
    hsaved (D := {b | ∃ blk ∈ o.blocks, blk.toBlockBody = b})
      (by simp [ho, Primitives.noCollision_singleton])
      (fun b hb => ⟨b, hb, rfl⟩) (HashMapRepoStore.lawful _ _ 0) HashMapRepoStore.new trivial
  exact ⟨o, s', id, key, c', o2, hnew, hsave, hload, hdeps, hsame, hcontent⟩

end Object

end Lofire
