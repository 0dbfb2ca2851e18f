import Lofire.Object.Copy
import Lofire.Object.MissingBlocks
import Lofire.Object.Sizes

/-!
# A copy preserves the object

The content of an object is that of its leaves, and `copy` keeps the leaves. So a copy of a created
object, or of one that was saved and loaded again, has the content and the dependencies of the
object and the new expiry, and it is loaded back from a store with both (`copy_preserves`).
-/

namespace Lofire

open Lib

namespace Object

variable {P : Primitives} {o o' : Object} {leaves below great : List (Node P)} {root root' : Node P}

/-! ## Objects with the same leaves -/

theorem Built.rooted {data : Bytes} {rootDeps : ObjectDeps} {expiry : Option Timestamp}
    (h : o.Built data rootDeps expiry below root) :
    ∃ leaves, o.Rooted leaves below root ∧ leaves.flatMap Node.chunk = data := by
  obtain ⟨leaves, hT, hdata⟩ := h.tower
  refine ⟨leaves, ⟨?_, h.key_eq, hT⟩, hdata⟩
  rw [h.blocks_eq]
  exact shows_map_made _

theorem CopyOf.rooted {convKey : Vector UInt8 32} {expiry : Option Timestamp}
    (h : o.CopyOf o' convKey expiry leaves root great root') :
    o'.Rooted (leaves.map (·.withExpiry expiry))
    (leaves.map (·.withExpiry expiry) ++ great) root' := by
  obtain ⟨ls, hls, hblocks⟩ := h.blocks
  refine ⟨?_, ?_, h.tower⟩
  · rw [hblocks, List.append_assoc]
    exact List.rel_append (hls.imp fun _ _ hh => hh.toShows) (shows_map_made _)
  · simp [key, Object.root, hblocks]

theorem CopyOf.expiry_of_mem {convKey : Vector UInt8 32} {expiry : Option Timestamp}
    (h : o.CopyOf o' convKey expiry leaves root great root') {b : Block} (hb : b ∈ o'.blocks) :
    b.expiry = expiry := by
  obtain ⟨n, hn, hshows⟩ := forall₂_mem_right h.rooted.shows hb
  rw [hshows.body_eq]
  rw [List.append_assoc] at hn
  obtain hn | hn := List.mem_append.mp hn
  · obtain ⟨m, -, rfl⟩ := List.mem_map.mp hn
    rfl
  · exact h.expiry_eq n hn

/-- The chunks do not depend on the expiry. -/
theorem flatMap_chunk_withExpiry (nodes : List (Node P)) (expiry : Option Timestamp) :
    (nodes.map (·.withExpiry expiry)).flatMap Node.chunk = nodes.flatMap Node.chunk := by
  rw [List.flatMap_map]
  rfl

theorem Rooted.content_eq (h : o.Rooted leaves below root) {c : ObjectContent}
    (hc : P.objectContent.fromSlice (leaves.flatMap Node.chunk) = some c) :
    o.content P = some (.ok c) := by
  rw [content_of_tower h.tower h.shows h.key_eq, hc]

theorem Rooted.blocks_ne_nil (h : o.Rooted leaves below root) : o.blocks ≠ [] := by
  obtain ⟨lows, b, hblocks, -⟩ := h.exists_root
  simp [hblocks]

/-- The contents of the blocks are bounded if the blocks are. -/
theorem Rooted.content_lt (hlen : P.BareLengths) (h : o.Rooted leaves below root)
    (hfits : ∀ b ∈ o.blocks, (b.toVec P).length ≤ storeMaxValueSize) :
    ∀ n ∈ below ++ [root], n.body.content.length + HEADER < 2 ^ 64 := by
  intro n hn
  obtain ⟨b, hb, hshows⟩ := forall₂_mem_left h.shows hn
  have hblock := hfits b hb
  rw [Block.toVec, hlen.blockBody, hshows.body_eq] at hblock
  simp only [storeMaxValueSize, MAX_FACTOR, PAGE_SIZE, HEADER, MIN_SIZE] at hblock ⊢
  omega

/-- An object with leaves is copied. -/
theorem Rooted.copy_returns (h : o.Rooted leaves below root)
    (hlen : ∀ n ∈ below ++ [root], n.body.content.length + HEADER < 2 ^ 64)
    (expiry : Option Timestamp)
    (repoPubkey : PubKey) (repoSecret : SymKey) :
    ∃ r, o.copy P expiry repoPubkey repoSecret = some r := by
  obtain ⟨ls, hls, hleaves⟩ := h.leaves_eq
  obtain ⟨res, hres, hok⟩ := leaves_returns (P := P) h.blocks_ne_nil h.key_eq
  rw [hleaves, Option.some.injEq] at hres
  have hdata : ¬ o.NoData P := by
    rw [← (hok ls hres.symm).2]
    rintro rfl
    cases hls
    exact h.tower.leaves_ne_nil rfl
  refine (copy_returns_iff h.blocks_ne_nil (fun b hb => ?_) expiry repoPubkey repoSecret).mpr
    ⟨⟨_, h.key_eq⟩, hdata⟩
  obtain ⟨n, hn, hshows⟩ := forall₂_mem_right h.shows hb
  rw [hshows.body_eq]
  exact hlen n hn

/-! ## Loading what was saved -/

theorem Rooted.exists_holds (h : o.Rooted leaves below root) {v : View}
    (hv : ∀ b ∈ o.blocks, Stored P v b.toBlockBody) :
    ∃ lows b, List.Forall₂ (Holds v) below lows ∧ Holds v root b := by
  have hstored : ∀ n ∈ below ++ [root], Stored P v n.body := by
    intro n hn
    obtain ⟨b, hb, hshows⟩ := forall₂_mem_left h.shows hn
    rw [← hshows.body_eq]
    exact hv b hb
  obtain ⟨lows, hlows⟩ := Object.exists_holds fun n hn => hstored n (List.mem_append_left _ hn)
  obtain ⟨b, hget, hbody, hvalid⟩ := hstored root (by simp)
  exact ⟨lows, b, hlows, hget, hbody, hvalid⟩

/-- An object that is loaded with its key where the blocks of `o` are stored has the leaves of `o`.
Its dependencies are those of the root. -/
theorem Rooted.of_load (h : o.Rooted leaves below root) {v : View}
    (hv : ∀ b ∈ o.blocks, Stored P v b.toBlockBody)
    (hload : Returns (loadView P v root.id (some root.key)) (.ok o')) :
    o'.Rooted leaves below root ∧ ∀ deps, root.body.deps = .objectIdList deps → o'.deps = deps := by
  obtain ⟨lows, b, hlows, hroot⟩ := h.exists_holds hv
  obtain ⟨n, hn⟩ := hload
  have hload := hn (max n below.length + 1) (by omega)
  rw [loadView_tower_succ h.tower hlows hroot _ (Nat.le_max_right n below.length)] at hload
  have hrooted : ∀ deps, (⟨lows ++ [b.setKey (some root.key)], deps⟩ : Object).Rooted leaves
      below root := by
    intro deps
    refine ⟨?_, by simp [key, Object.root], h.tower⟩
    exact List.rel_append (hlows.imp fun _ _ hh => hh.2) (.cons (hroot.2.setKey _) .nil)
  have hdeps : (if (some root.key).isSome then b.setKey (some root.key) else b).deps =
      root.body.deps := by
    rw [← hroot.2.body_eq]
    rfl
  cases hd : root.body.deps with
  | objectIdList deps =>
    rw [loadDeps_idList (hdeps.trans hd)] at hload
    cases hload
    refine ⟨hrooted deps, fun deps' hdeps' => ?_⟩
    cases hdeps'
    rfl
  | depListRef ref =>
    obtain ⟨e, -, he⟩ | ⟨obj, c, -, -, ⟨e, -, he⟩ | ⟨deps, hok⟩ | he⟩ :=
      loadDeps_cases (hdeps.trans hd) hload
    · cases he
    · cases he
    · cases hok
      refine ⟨hrooted deps, fun deps' hdeps' => ?_⟩
      cases hdeps'
    · cases he

/-- An object with inline dependencies is loaded where its blocks are stored. -/
theorem Rooted.load (h : o.Rooted leaves below root) {deps : List ObjectId}
    (hdeps : root.body.deps = .objectIdList deps) {v : View}
    (hv : ∀ b ∈ o.blocks, Stored P v b.toBlockBody) :
    ∃ o', Returns (loadView P v root.id (some root.key)) (.ok o') := by
  obtain ⟨lows, b, hlows, hroot⟩ := h.exists_holds hv
  have hroot' : (if (some root.key).isSome then b.setKey (some root.key) else b).deps =
      .objectIdList deps := by
    rw [← hdeps, ← hroot.2.body_eq]
    rfl
  have hload := loadView_tower_succ h.tower hlows hroot (some root.key) (Nat.le_refl _)
  exact ⟨_, (loadView_mono v root.id _).returns (hload.trans (loadDeps_idList hroot' _))⟩

/-- An object that is saved and loaded, by its id and key, from the store where it was saved. -/
def Reloaded (P : Primitives) (o o' : Object) : Prop :=
  ∃ (D : Set BlockBody) (σ : Type) (S : RepoStore σ) (hS : S.Lawful P D) (s s' : σ) (id : ObjectId)
    (key : Option SymKey), P.NoCollision D ∧ (∀ b ∈ o.blocks, b.toBlockBody ∈ D) ∧ hS.Inv s ∧
    save P S.put o s = .ok (.ok ()) s' ∧ o.id P = some id ∧ o.key = some key ∧
    LoadsFrom P S s' id key (.ok o')

theorem Rooted.of_reloaded (h : o.Rooted leaves below root) (hload : Reloaded P o o') :
    o'.Rooted leaves below root ∧ ∀ deps, root.body.deps = .objectIdList deps → o'.deps = deps := by
  obtain ⟨D, σ, S, hS, s, s', id, key, hD, hoD, hs, hsave, hid, hkey, hload⟩ := hload
  have hvalid : ∀ b ∈ o.blocks, b.Valid P ∧ b.toBlockBody ∈ D := by
    intro b hb
    obtain ⟨n, -, hshows⟩ := forall₂_mem_right h.shows hb
    exact ⟨hshows.valid, hoD b hb⟩
  obtain ⟨s'', hsave', hs', hstored, -⟩ := save_spec hS hD hs hvalid
  rw [hsave, EStateM.Result.ok.injEq] at hsave'
  obtain ⟨-, rfl⟩ := hsave'
  rw [h.id_eq, Option.some.injEq] at hid
  rw [h.key_eq, Option.some.injEq] at hkey
  subst hid hkey
  exact h.of_load hstored ((loadsFrom_iff hS hs').mp hload)

/-- An object is saved in any store and loaded back with its leaves. -/
theorem Rooted.load_saved (h : o.Rooted leaves below root) {deps : List ObjectId}
    (hdeps : root.body.deps = .objectIdList deps) {D : Set BlockBody} (hD : P.NoCollision D)
    (hoD : ∀ b ∈ o.blocks, b.toBlockBody ∈ D) {σ : Type} {S : RepoStore σ}
    (hS : S.Lawful P D) {s : σ}
    (hs : hS.Inv s) :
    ∃ s' o', save P S.put o s = .ok (.ok ()) s' ∧
    LoadsFrom P S s' root.id (some root.key) (.ok o') ∧
      o'.Rooted leaves below root ∧ o'.deps = deps := by
  have hvalid : ∀ b ∈ o.blocks, b.Valid P ∧ b.toBlockBody ∈ D := by
    intro b hb
    obtain ⟨n, -, hshows⟩ := forall₂_mem_right h.shows hb
    exact ⟨hshows.valid, hoD b hb⟩
  obtain ⟨s', hsave, hs', hstored, -⟩ := save_spec hS hD hs hvalid
  obtain ⟨o', hload⟩ := h.load hdeps hstored
  obtain ⟨hrooted, ho'⟩ := h.of_load hstored hload
  exact ⟨s', o', hsave, (loadsFrom_iff hS hs').mpr hload, hrooted, ho' deps hdeps⟩

/-- Inline dependencies are those that `new` was given. -/
theorem makeDeps_idList {deps ids : List ObjectId} {objectSize : Nat} {repoPubkey : PubKey}
    {repoSecret : SymKey} (h : makeDeps P deps objectSize repoPubkey repoSecret =
      some (.objectIdList ids)) :
    ids = deps := by
  obtain ⟨-, heq⟩ | ⟨-, r, heq⟩ := makeDeps_cases h
  · cases heq
    rfl
  · cases heq

/-- A copy of a created object, also after it was saved and loaded again, has its content and its
dependencies and the new expiry. With at most 8 dependencies it is saved and loaded with both. -/
theorem copy_preserves (hP : P.SerdeLaws) (hlen : P.BareLengths)
    {c : ObjectContent} (hc : P.Decodes c)
    (deps : List ObjectId) (expiry : Option Timestamp) {blockSize : Nat}
    (hsize : blockSize < 2 ^ 32)
    (repoPubkey : PubKey) (repoSecret : SymKey) :
    ∃ created, new P c deps expiry blockSize repoPubkey repoSecret = some created ∧
      ∀ o, o = created ∨ Reloaded P created o →
      ∀ (expiry' : Option Timestamp) (repoPubkey' : PubKey) (repoSecret' : SymKey), ∃ o' c',
        o.copy P expiry' repoPubkey' repoSecret' = some (.ok o') ∧
        c' ≈ c ∧ o.content P = some (.ok c') ∧ o'.content P = some (.ok c') ∧ o'.deps = o.deps ∧
        (∀ b ∈ o'.blocks, b.expiry = expiry') ∧
        (deps.length ≤ 8 → ∀ {D : Set BlockBody}, P.NoCollision D →
          (∀ b ∈ o'.blocks, b.toBlockBody ∈ D) →
          ∀ {σ : Type} {S : RepoStore σ} (hS : S.Lawful P D) (s : σ), hS.Inv s →
          ∃ s' id key o'', save P S.put o' s = .ok (.ok ()) s' ∧ o'.id P = some id ∧
            o'.key = some key ∧ LoadsFrom P S s' id key (.ok o'') ∧
            o''.content P = some (.ok c') ∧ o''.deps = deps ∧ o''.deps = o'.deps) := by
  obtain ⟨created, hnew⟩ := new_returns hP c deps expiry (add_header_lt hsize) repoPubkey repoSecret
  obtain ⟨_, -, hfits⟩ := new_fits hlen hnew
  obtain ⟨valid, objDeps, below, root, -, hmake, hbuilt, -, hdeps⟩ := built_of_new hP hnew
  obtain ⟨leaves, hrooted, hdata⟩ := hbuilt.rooted
  obtain ⟨c', hdec, hsame⟩ := hc
  rw [← hdata] at hdec
  have hsizes := hrooted.content_lt hlen fun b hb => (hfits b hb).2
  refine ⟨created, hnew, fun o ho expiry' repoPubkey' repoSecret' => ?_⟩
  have hleaves : o.Rooted leaves below root ∧
      ∀ ids, root.body.deps = .objectIdList ids → o.deps = ids := by
    obtain rfl | ho := ho
    · refine ⟨hrooted, fun ids hids => ?_⟩
      rw [hdeps, makeDeps_idList (hmake.trans (congrArg some (hbuilt.root_deps.symm.trans hids)))]
    · exact hrooted.of_reloaded ho
  obtain ⟨r, hr⟩ := hleaves.1.copy_returns hsizes expiry' repoPubkey' repoSecret'
  obtain ⟨o', great, root', rfl, hcopy⟩ := hleaves.1.copy_eq hP hr
  have hdec' : P.objectContent.fromSlice ((leaves.map (·.withExpiry expiry')).flatMap Node.chunk) =
      some c' := by
    rw [flatMap_chunk_withExpiry]
    exact hdec
  refine ⟨o', c', hr, hsame, hleaves.1.content_eq hdec,
    hcopy.rooted.content_eq hdec', hcopy.deps_eq,
    fun b hb => hcopy.expiry_of_mem hb, fun hshort D hD hoD σ S hS s hs => ?_⟩
  have hroot : root.body.deps = .objectIdList deps := by
    rw [hbuilt.root_deps]
    exact (Option.some.inj (hmake.symm.trans (if_pos hshort)))
  obtain ⟨s', o'', hsave, hload, hrooted', hdeps'⟩ :=
    hcopy.rooted.load_saved (hcopy.root_deps.trans hroot) hD hoD hS hs
  refine ⟨s', root'.id, some root'.key, o'', hsave, hcopy.rooted.id_eq, hcopy.rooted.key_eq, hload,
    hrooted'.content_eq hdec', hdeps', ?_⟩
  rw [hdeps', hcopy.deps_eq, hleaves.2 deps hroot]

/-- A file with a dependency, copied for another repository. -/
theorem copy_preserves_file :
    let P := reference fun _ _ => false
    ∃ o o' c', new P (.file ⟨[116], [], [104, 105]⟩) [⟨.replicate 32 7⟩]
    (some 9) 4096 ⟨.replicate 32 1⟩
        ⟨.replicate 32 2⟩ = some o ∧
      o.copy P none ⟨.replicate 32 3⟩ ⟨.replicate 32 4⟩ = some (.ok o') ∧
      o.content P = some (.ok c') ∧ o'.content P = some (.ok c') ∧ o'.deps = o.deps ∧
      ∀ b ∈ o'.blocks, b.expiry = none := by
  obtain ⟨o, hnew, h⟩ := copy_preserves (P := reference fun _ _ => false) Reference.serdeLaws
    Reference.bareLengths (c := .file ⟨[116], [], [104, 105]⟩) (Reference.decodes rfl)
    [⟨.replicate 32 7⟩] (some 9) (show 4096 < 2 ^ 32 by decide) ⟨.replicate 32 1⟩ ⟨.replicate 32 2⟩
  obtain ⟨o', c', hcopy, -, hcontent, hcontent', hdeps, hexpiry, -⟩ :=
    h o (.inl rfl) none ⟨.replicate 32 3⟩ ⟨.replicate 32 4⟩
  exact ⟨o, o', c', hnew, hcopy, hcontent, hcontent', hdeps, hexpiry⟩

end Object

end Lofire
