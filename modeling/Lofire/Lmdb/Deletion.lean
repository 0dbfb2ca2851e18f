import Lofire.Lmdb.Dangling

/-!
# Deletion

`del` looks for the LRU entry of a block under the last use in its meta, and takes a last use of 0
for no entry. So it panics on a block that is pinned and synced, whose entry `set_pin` has removed,
and it leaves an entry that is filed under the time 0. `Removed` is what any number of deletions do
to the tables; the results about `del`, `remove_expired` and `remove_least_used` are read off it.
-/

namespace Lofire

open Lib

namespace LmdbRepoStore

variable {P : Primitives} {appendDup : Finset BlockId → BlockId → Bool} {B : Set Block}
  {s s' s'' : LmdbRepoStore} {id : BlockId} {R R' : Set BlockId}

/-! ## The entries of a block -/

/-- The entries of `id` are the same in both states. -/
structure SameEntries (s s' : LmdbRepoStore) (id : BlockId) : Prop where
  main : s'.mainStore id = s.mainStore id
  metas : s'.metaStore id = s.metaStore id
  expiry : ∀ e, (e, id) ∈ s'.expiryStore ↔ (e, id) ∈ s.expiryStore
  lru : ∀ t, (t, id) ∈ s'.recentlyUsedStore ↔ (t, id) ∈ s.recentlyUsedStore

/-- No table has an entry of `id`. -/
structure Gone (s : LmdbRepoStore) (id : BlockId) : Prop where
  main : s.mainStore id = none
  metas : s.metaStore id = none
  expiry : ∀ e, (e, id) ∉ s.expiryStore
  lru : ∀ t, (t, id) ∉ s.recentlyUsedStore

/-- The blocks of `R` are removed, up to their LRU entries under the time 0. -/
structure Removed (R : Set BlockId) (s s' : LmdbRepoStore) : Prop where
  others : ∀ id, id ∉ R → SameEntries s s' id
  main : ∀ id ∈ R, s'.mainStore id = none
  metas : ∀ id ∈ R, s'.metaStore id = none
  expiry : ∀ id ∈ R, ∀ e, (e, id) ∉ s'.expiryStore
  lru : ∀ id ∈ R, ∀ t, (t, id) ∈ s'.recentlyUsedStore ↔ t = 0 ∧ (0, id) ∈ s.recentlyUsedStore

/-- What `del` relies on: the stored blocks can be decoded, the expiry list holds exactly those with
an expiry, and the entries of the LRU list belong to the last uses in the metas. -/
structure Coherent (P : Primitives) (s : LmdbRepoStore) : Prop where
  decodes : ∀ id ser, s.mainStore id = some ser → ∃ b, Block.fromSlice P ser = some b
  expiry : ∀ e id, (e, id) ∈ s.expiryStore ↔ HasExpiry P (s.mainStore id) e
  lru : ∀ t id, t ≠ 0 → (t, id) ∈ s.recentlyUsedStore → Listed (s.metaStore id) t

/-- `del` finds the LRU entry that it removes. -/
def EntryFound (s : LmdbRepoStore) (id : BlockId) : Prop :=
  ∀ m, s.metaStore id = some m → m.lastUsed ≠ 0 → (m.lastUsed, id) ∈ s.recentlyUsedStore

namespace SameEntries

theorem refl (s : LmdbRepoStore) (id : BlockId) : SameEntries s s id :=
  ⟨rfl, rfl, fun _ => Iff.rfl, fun _ => Iff.rfl⟩

theorem trans (h : SameEntries s s' id) (h' : SameEntries s' s'' id) : SameEntries s s'' id where
  main := h'.main.trans h.main
  metas := h'.metas.trans h.metas
  expiry := fun e => (h'.expiry e).trans (h.expiry e)
  lru := fun t => (h'.lru t).trans (h.lru t)

theorem stored_iff (h : SameEntries s s' id) : s'.Stored id ↔ s.Stored id := by
  unfold Stored
  rw [h.main]

theorem entryFound_iff (h : SameEntries s s' id) : s'.EntryFound id ↔ s.EntryFound id := by
  unfold EntryFound
  rw [h.metas]
  simp only [h.lru]

end SameEntries

namespace Removed

theorem refl (s : LmdbRepoStore) : Removed ∅ s s where
  others := fun id _ => .refl s id
  main := by simp
  metas := by simp
  expiry := by simp
  lru := by simp

/-- Of a block that is removed, only an entry under the time 0 can be left. -/
theorem gone_iff (h : Removed R s s') (hid : id ∈ R) :
    s'.Gone id ↔ (0, id) ∉ s.recentlyUsedStore := by
  constructor
  · intro hgone hzero
    exact hgone.lru 0 ((h.lru id hid 0).mpr ⟨rfl, hzero⟩)
  · intro hzero
    refine ⟨h.main id hid, h.metas id hid, h.expiry id hid, fun t ht => ?_⟩
    exact hzero ((h.lru id hid t).mp ht).2

theorem trans (h : Removed R s s') (h' : Removed R' s' s'') : Removed (R ∪ R') s s'' := by
  constructor
  · intro id hid
    have hR : id ∉ R := fun hmem => hid (Or.inl hmem)
    have hR' : id ∉ R' := fun hmem => hid (Or.inr hmem)
    exact (h.others id hR).trans (h'.others id hR')
  · intro id hid
    by_cases hR' : id ∈ R'
    · exact h'.main id hR'
    · rw [(h'.others id hR').main]
      exact h.main id (hid.resolve_right hR')
  · intro id hid
    by_cases hR' : id ∈ R'
    · exact h'.metas id hR'
    · rw [(h'.others id hR').metas]
      exact h.metas id (hid.resolve_right hR')
  · intro id hid e
    by_cases hR' : id ∈ R'
    · exact h'.expiry id hR' e
    · rw [(h'.others id hR').expiry]
      exact h.expiry id (hid.resolve_right hR') e
  · intro id hid t
    by_cases hR : id ∈ R
    · by_cases hR' : id ∈ R'
      · rw [h'.lru id hR', h.lru id hR]
        simp
      · rw [(h'.others id hR').lru, h.lru id hR]
    · have hR' : id ∈ R' := hid.resolve_left hR
      rw [h'.lru id hR', (h.others id hR).lru]

end Removed

/-- Deletions keep what `del` relies on. -/
theorem Coherent.removed (h : Coherent P s) (hrem : Removed R s s') : Coherent P s' := by
  constructor
  · intro id ser hser
    by_cases hid : id ∈ R
    · rw [hrem.main id hid] at hser
      cases hser
    · rw [(hrem.others id hid).main] at hser
      exact h.decodes id ser hser
  · intro e id
    by_cases hid : id ∈ R
    · rw [hrem.main id hid]
      exact iff_of_false (hrem.expiry id hid e) (not_hasExpiry_none e)
    · rw [(hrem.others id hid).main, (hrem.others id hid).expiry]
      exact h.expiry e id
  · intro t id ht hmem
    by_cases hid : id ∈ R
    · exact absurd ((hrem.lru id hid t).mp hmem).1 ht
    · rw [(hrem.others id hid).metas]
      exact h.lru t id ht (((hrem.others id hid).lru t).mp hmem)

/-! ## One deletion -/

theorem mem_dropMeta_lru {t : Timestamp} {id' : BlockId} :
    (t, id') ∈ (s.dropMeta id).recentlyUsedStore ↔ (t, id') ∈ s.recentlyUsedStore ∧
      ¬ (id' = id ∧ t ≠ 0 ∧ ∃ m, s.metaStore id = some m ∧ m.lastUsed = t) := by
  unfold dropMeta
  cases hm : s.metaStore id with
  | none => simp
  | some m =>
    show (t, id') ∈ (if m.lastUsed ≠ 0 then s.deleteLru id m.lastUsed else s).recentlyUsedStore ↔ _
    by_cases hlast : m.lastUsed = 0
    · rw [if_neg (not_not.mpr hlast)]
      have hne : ∀ m', some m = some m' → m'.lastUsed = t → t = 0 := by
        intro m' hm' ht
        cases hm'
        rw [← ht, hlast]
      constructor
      · intro hmem
        refine ⟨hmem, ?_⟩
        rintro ⟨-, ht, m', hm', heq⟩
        exact ht (hne m' hm' heq)
      · exact And.left
    · rw [if_pos hlast, mem_deleteLru]
      constructor
      · rintro ⟨hne, hmem⟩
        refine ⟨hmem, ?_⟩
        rintro ⟨hid, -, m', hm', heq⟩
        cases hm'
        exact hne ⟨heq.symm, hid⟩
      · rintro ⟨hmem, hne⟩
        refine ⟨?_, hmem⟩
        rintro ⟨rfl, rfl⟩
        exact hne ⟨rfl, hlast, m, rfl, rfl⟩

theorem delTxn_recentlyUsedStore {block : Block} (hrun : delTxn id block s = .ok s') :
    s'.recentlyUsedStore = (s.dropMeta id).recentlyUsedStore := by
  obtain ⟨-, rfl⟩ := delTxn_ok hrun
  unfold dropExpiry
  split <;> rfl

/-- `del` removes the block and no entry of another one. -/
theorem Coherent.removed_del (h : Coherent P s) {r : Block × Nat}
    (hrun : del P id s = .ok (.ok r) s') : Removed {id} s s' := by
  obtain ⟨slice, s₁, block, hrun₁, hslice, hblock, htxn⟩ | ⟨e, hrun₁⟩ | ⟨p, hrun₁⟩ :=
    del_cases P id s
  · rw [hrun₁] at hrun
    cases hrun
    have hexp : ∀ e, (e, id) ∈ s.expiryStore → block.expiry = some e := by
      intro e hmem
      obtain ⟨ser, b, hser, hb, he⟩ := (h.expiry e id).mp hmem
      rw [hslice] at hser
      cases hser
      rw [hblock] at hb
      cases hb
      exact he
    constructor
    · intro id' hid'
      have hne : id' ≠ id := hid'
      constructor
      · rw [delTxn_mainStore htxn, Function.update_of_ne hne]
      · rw [delTxn_metaStore htxn, Function.update_of_ne hne]
      · intro e
        rw [mem_delTxn_expiryStore htxn]
        simp [hne]
      · intro t
        rw [delTxn_recentlyUsedStore htxn, mem_dropMeta_lru]
        simp [hne]
    · rintro _ rfl
      rw [delTxn_mainStore htxn, Function.update_self]
    · rintro _ rfl
      rw [delTxn_metaStore htxn, Function.update_self]
    · rintro _ rfl e hmem
      obtain ⟨hne, hmem⟩ := (mem_delTxn_expiryStore htxn).mp hmem
      exact hne ⟨hexp e hmem, rfl⟩
    · rintro _ rfl t
      rw [delTxn_recentlyUsedStore htxn, mem_dropMeta_lru]
      constructor
      · rintro ⟨hmem, hnot⟩
        have ht : t = 0 := by
          by_contra ht
          obtain ⟨m, hm, -, -, hlast⟩ := h.lru t _ ht hmem
          exact hnot ⟨rfl, ht, m, hm, hlast⟩
        subst ht
        exact ⟨rfl, hmem⟩
      · rintro ⟨rfl, hmem⟩
        exact ⟨hmem, fun hnot => hnot.2.1 rfl⟩
  · rw [hrun₁] at hrun
    cases hrun
  · rw [hrun₁] at hrun
    cases hrun

/-- `del` returns a stored block and its size if it finds its LRU entry, and else panics. -/
theorem Coherent.del_run (h : Coherent P s) (hid : s.Stored id) :
    ∃ slice block, s.mainStore id = some slice ∧ Block.fromSlice P slice = some block ∧
      (s.EntryFound id → ∃ s', del P id s = .ok (.ok (block, slice.length)) s') ∧
      (¬ s.EntryFound id → ∃ p, del P id s = .error p s) := by
  obtain ⟨slice, hslice⟩ := Option.ne_none_iff_exists'.mp hid
  obtain ⟨block, hblock⟩ := h.decodes id slice hslice
  refine ⟨slice, block, hslice, hblock, fun hfound => ?_, fun hfound => ?_⟩
  · have hexp : ∀ e, block.expiry = some e → (e, id) ∈ s.expiryStore :=
      fun e he => (h.expiry e id).mpr ⟨slice, block, hslice, hblock, he⟩
    obtain ⟨s', htxn⟩ := delTxn_returns hfound hexp
    refine ⟨s', ?_⟩
    simp only [del, write, hslice, hblock, htxn]
    rfl
  · obtain ⟨_, s', _, -, -, -, htxn⟩ | ⟨e, hrun⟩ | hpanic := del_cases P id s
    · exact absurd (delTxn_ok htxn).1 hfound
    · exact absurd hrun (del_found hid e s)
    · exact hpanic

end LmdbRepoStore

end Lofire
