import Lofire.Lib.ShortestSum
import Lofire.Lmdb.Reached

/-!
# Deletion, expiry and space reclamation

Which blocks `del` removes completely, which states `remove_expired` gets through, and what
`remove_least_used` removes. The loops of the last two are runs of `del` over a snapshot of an index
table; a block that cannot be deleted ends them.
-/

namespace Lofire

open Lib

namespace LmdbRepoStore

variable {P : Primitives} {appendDup : Finset BlockId → BlockId → Bool} {B : Set Block}
  {T : Timestamp → Prop} {s s' : LmdbRepoStore} {id : BlockId}

/-! ## `del` -/

/-- `del` returns the stored block, leaves no entry of it, and keeps the other entries. -/
def DeletesCompletely (P : Primitives) (s : LmdbRepoStore) (id : BlockId) : Prop :=
  ∃ slice block s', s.mainStore id = some slice ∧ Block.fromSlice P slice = some block ∧
    del P id s = .ok (.ok (block, slice.length)) s' ∧ s'.Gone id ∧
      ∀ id', id' ≠ id → SameEntries s s' id'

/-- The block is not both pinned and synced, unless at the time 0, and has no LRU entry under the
time 0. -/
structure Deletable (s : LmdbRepoStore) (id : BlockId) : Prop where
  pinned : ∀ m, s.metaStore id = some m → m.synced = true → m.pin = true → m.lastUsed = 0
  zero : (0, id) ∉ s.recentlyUsedStore

theorem Reached.deletesCompletely_iff (hP : P.SerdeLaws) (h : Reached P B s) (hid : s.Stored id) :
    s.DeletesCompletely P id ↔ s.Deletable id := by
  have hcoh := h.coherent hP
  obtain ⟨slice, block, hslice, hblock, hok, hpanic⟩ := hcoh.del_run hid
  constructor
  · rintro ⟨slice', block', s', -, -, hrun, hgone, -⟩
    have hrem := hcoh.removed_del hrun
    refine ⟨(h.entryFound_iff id).mp ?_, (hrem.gone_iff rfl).mp hgone⟩
    by_contra hfound
    obtain ⟨p, hrun'⟩ := hpanic hfound
    rw [hrun'] at hrun
    cases hrun
  · rintro ⟨hpinned, hzero⟩
    obtain ⟨s', hrun⟩ := hok ((h.entryFound_iff id).mpr hpinned)
    have hrem := hcoh.removed_del hrun
    exact ⟨slice, block, s', hslice, hblock, hrun, (hrem.gone_iff rfl).mpr hzero, hrem.others⟩

/-- After any sequence of calls, exactly these stored blocks are deleted completely. -/
theorem del_complete_iff (hP : P.SerdeLaws) (hB : IdsDistinct P B) {ops : List Op}
    (hops : ∀ op ∈ ops, op.Allowed B fun _ => True) (hid : (run P appendDup ops).Stored id) :
    (run P appendDup ops).DeletesCompletely P id ↔ (run P appendDup ops).Deletable id :=
  (reached_run hP hB hops).deletesCompletely_iff hP hid

/-- A block that is put in the empty store, pinned and then synced. -/
theorem run_pinned_synced (P : Primitives) (b : Block) (t now : Timestamp) :
    run P appendAfter [.put b, .setPin (b.id P) true, .hasBeenSynced (b.id P) (some t) now] =
      ((putTxn P b empty).putMeta (b.id P) ⟨true, 0, false⟩).putMeta (b.id P) ⟨true, t, true⟩ := by
  have hmeta : (putTxn P b empty).metaStore (b.id P) = none := by
    rw [putTxn_metaStore]
    rfl
  have hput : exec P appendAfter (.put b) empty = putTxn P b empty := rfl
  have hpin : exec P appendAfter (.setPin (b.id P) true) (putTxn P b empty) =
      (putTxn P b empty).putMeta (b.id P) ⟨true, 0, false⟩ := by
    simp only [exec, setPin, write, setPinTxn, hmeta]
    rfl
  have hsynced : ∀ s : LmdbRepoStore, s.metaStore (b.id P) = some ⟨true, 0, false⟩ →
      exec P appendAfter (.hasBeenSynced (b.id P) (some t) now) s =
      s.putMeta (b.id P) ⟨true, t, true⟩ := by
    intro s hm
    simp only [exec, hasBeenSynced, write, hasBeenSyncedTxn, Option.getD_some, hm]
    rfl
  rw [run, List.foldl_cons, List.foldl_cons, List.foldl_cons, List.foldl_nil, hput, hpin,
    hsynced _ (putMeta_self _)]

/-- A block with the expiry 40. -/
def sampleBlock : Block :=
  Block.new (reference fun _ _ => false) [] (.objectIdList []) (some 40) [1, 2, 3] none

theorem idsDistinct_singleton (b : Block) : IdsDistinct P {b} := by
  rintro _ rfl _ rfl -
  rfl

theorem allowed_pinned_synced (P : Primitives) (b : Block) (t now : Timestamp) :
    ∀ op ∈ [Op.put b, .setPin (b.id P) true, .hasBeenSynced (b.id P) (some t) now],
      op.Allowed {b} fun _ => True := by
  simp [Op.Allowed]

theorem stored_put (P : Primitives) (b : Block) :
    (run P appendAfter [.put b]).Stored (b.id P) := by
  show (putTxn P b empty).mainStore (b.id P) ≠ none
  rw [putTxn_mainStore, Function.update_self]
  exact Option.some_ne_none _

theorem stored_pinned_synced (P : Primitives) (b : Block) (t now : Timestamp) :
    (run P appendAfter [.put b, .setPin (b.id P) true,
      .hasBeenSynced (b.id P) (some t) now]).mainStore
      (b.id P) = some (b.toVec P) := by
  rw [run_pinned_synced]
  show (putTxn P b empty).mainStore (b.id P) = _
  rw [putTxn_mainStore, Function.update_self]

theorem del_complete_iff_put :
    (run (reference fun _ _ => false) appendAfter [.put sampleBlock]).DeletesCompletely
      (reference fun _ _ => false) (sampleBlock.id (reference fun _ _ => false)) := by
  refine (del_complete_iff Reference.serdeLaws (idsDistinct_singleton sampleBlock)
    (by simp [Op.Allowed]) (stored_put _ sampleBlock)).mpr ⟨fun m hm => ?_, Finset.notMem_empty _⟩
  cases hm

/-- A block that was pinned and then synced cannot be deleted. -/
theorem not_del_complete :
    ¬ ∀ (P : Primitives) (B : Set Block) (ops : List Op) (id : BlockId), P.SerdeLaws →
      IdsDistinct P B → (∀ op ∈ ops, op.Allowed B fun _ => True) →
      (run P appendAfter ops).Stored id →
        (run P appendAfter ops).DeletesCompletely P id := by
  intro h
  let P := reference fun _ _ => false
  have hB := idsDistinct_singleton (P := P) sampleBlock
  have hops := allowed_pinned_synced P sampleBlock 5 9
  have hstored : (run P appendAfter [.put sampleBlock, .setPin (sampleBlock.id P) true,
      .hasBeenSynced (sampleBlock.id P) (some 5) 9]).Stored (sampleBlock.id P) := by
    unfold Stored
    rw [stored_pinned_synced]
    exact Option.some_ne_none _
  have hdel := (reached_run Reference.serdeLaws hB hops).deletesCompletely_iff
    Reference.serdeLaws hstored
  have hpinned := (hdel.mp (h P _ _ _ Reference.serdeLaws hB hops hstored)).pinned ⟨true, 5, true⟩
    (by rw [run_pinned_synced, putMeta_self]) rfl rfl
  exact absurd hpinned (by decide)

/-! ## Loops of deletions -/

theorem delAll_cons_ok {ids : List BlockId} :
    delAll P (id :: ids) s = .ok () s' ↔
      ∃ r s₁, del P id s = .ok (.ok r) s₁ ∧ delAll P ids s₁ = .ok () s' := by
  rw [delAll, StoreM.bind_ok]
  constructor
  · rintro ⟨res, s₁, hdel, hrest⟩
    cases res with
    | error e => cases hrest
    | ok r => exact ⟨r, s₁, hdel, hrest⟩
  · rintro ⟨r, s₁, hdel, hrest⟩
    exact ⟨.ok r, s₁, hdel, hrest⟩

theorem setOf_mem_cons (id : BlockId) (ids : List BlockId) :
    {x | x ∈ id :: ids} = {id} ∪ {x | x ∈ ids} := by
  ext x
  simp

/-- The loop of `remove_expired`, where it gets through. -/
theorem Coherent.delAll_removed (h : Coherent P s) {ids : List BlockId}
    (hrun : delAll P ids s = .ok () s') : Removed {x | x ∈ ids} s s' := by
  induction ids generalizing s with
  | nil =>
    cases hrun
    simpa using Removed.refl _
  | cons id ids ih =>
    obtain ⟨r, s₁, hdel, hrest⟩ := delAll_cons_ok.mp hrun
    have hrem := h.removed_del hdel
    rw [setOf_mem_cons]
    exact hrem.trans (ih (h.removed hrem) hrest)

/-- The loop of `remove_expired` gets through if and only if `del` finds the LRU entries of all
blocks. -/
theorem Coherent.delAll_ok_iff (h : Coherent P s) {ids : List BlockId} (hnodup : ids.Nodup)
    (hstored : ∀ id ∈ ids, s.Stored id) :
    (∃ s', delAll P ids s = .ok () s') ↔ ∀ id ∈ ids, s.EntryFound id := by
  induction ids generalizing s with
  | nil =>
    refine iff_of_true ⟨s, rfl⟩ ?_
    simp
  | cons id ids ih =>
    obtain ⟨hid, hnodup⟩ := List.nodup_cons.mp hnodup
    rw [List.forall_mem_cons] at hstored ⊢
    obtain ⟨slice, block, -, -, hok, hpanic⟩ := h.del_run hstored.1
    -- one deletion leaves the entries of the blocks to come
    have hsame : ∀ {r s₁}, del P id s = .ok (.ok r) s₁ → ∀ x ∈ ids, SameEntries s s₁ x := by
      intro r s₁ hdel x hx
      exact (h.removed_del hdel).others x fun heq => hid (heq ▸ hx)
    have hrest : ∀ {r s₁}, del P id s = .ok (.ok r) s₁ →
        ((∃ s', delAll P ids s₁ = .ok () s') ↔ ∀ x ∈ ids, s.EntryFound x) := by
      intro r s₁ hdel
      rw [ih (h.removed (h.removed_del hdel)) hnodup
        fun x hx => (hsame hdel x hx).stored_iff.mpr (hstored.2 x hx)]
      exact forall₂_congr fun x hx => (hsame hdel x hx).entryFound_iff
    constructor
    · rintro ⟨s', hrun⟩
      obtain ⟨r, s₁, hdel, htail⟩ := delAll_cons_ok.mp hrun
      refine ⟨?_, (hrest hdel).mp ⟨s', htail⟩⟩
      by_contra hfound
      obtain ⟨p, hdel'⟩ := hpanic hfound
      rw [hdel'] at hdel
      cases hdel
    · rintro ⟨hfound, htail⟩
      obtain ⟨s₁, hdel⟩ := hok hfound
      obtain ⟨s', hrun⟩ := (hrest hdel).mpr htail
      exact ⟨s', delAll_cons_ok.mpr ⟨_, s₁, hdel, hrun⟩⟩

/-! ## `remove_expired` -/

/-- The block is stored, and its expiry has been reached. -/
def Expired (P : Primitives) (now : Timestamp) (s : LmdbRepoStore) (id : BlockId) : Prop :=
  ∃ e, HasExpiry P (s.mainStore id) e ∧ e ≤ now

/-- `remove_expired` completes, leaves no entry of an expired block, and keeps the other entries. -/
def ExpiresExactly (P : Primitives) (now : Timestamp) (s : LmdbRepoStore) : Prop :=
  ∃ s', removeExpired P now s = .ok () s' ∧ (∀ id, s.Expired P now id → s'.Gone id) ∧
    ∀ id, ¬ s.Expired P now id → SameEntries s s' id

/-- The blocks that `remove_expired` collects. -/
theorem Coherent.mem_collected (h : Coherent P s) {now : Timestamp} :
    id ∈ (s.expiryStore.descendingFrom now).map Prod.snd ↔ s.Expired P now id := by
  rw [List.mem_map]
  constructor
  · rintro ⟨⟨e, id⟩, hmem, rfl⟩
    obtain ⟨hmem, hle⟩ := MultiMap.mem_descendingFrom.mp hmem
    exact ⟨e, (h.expiry e id).mp hmem, hle⟩
  · rintro ⟨e, he, hle⟩
    exact ⟨(e, id), MultiMap.mem_descendingFrom.mpr ⟨(h.expiry e id).mpr he, hle⟩, rfl⟩

theorem hasExpiry_unique {ser? : Option Bytes} {e e' : Timestamp} (h : HasExpiry P ser? e)
    (h' : HasExpiry P ser? e') : e = e' := by
  obtain ⟨ser, b, rfl, hb, he⟩ := h
  obtain ⟨ser', b', hser, hb', he'⟩ := h'
  cases hser
  rw [hb] at hb'
  cases hb'
  rw [he] at he'
  cases he'
  rfl

theorem Coherent.nodup_collected (h : Coherent P s) (now : Timestamp) :
    ((s.expiryStore.descendingFrom now).map Prod.snd).Nodup := by
  refine List.Nodup.map_on ?_ (s.expiryStore.nodup_descendingFrom now)
  rintro ⟨e, id⟩ hp ⟨e', id'⟩ hp' rfl
  have he := (h.expiry e id).mp (MultiMap.mem_descendingFrom.mp hp).1
  have he' := (h.expiry e' id).mp (MultiMap.mem_descendingFrom.mp hp').1
  rw [hasExpiry_unique he he']

theorem Reached.expiresExactly_iff (hP : P.SerdeLaws) (h : Reached P B s) (now : Timestamp) :
    s.ExpiresExactly P now ↔ ∀ id, s.Expired P now id → s.Deletable id := by
  have hcoh := h.coherent hP
  have hstored : ∀ id ∈ (s.expiryStore.descendingFrom now).map Prod.snd, s.Stored id := by
    intro id hid
    obtain ⟨e, ⟨ser, b, hser, -⟩, -⟩ := hcoh.mem_collected.mp hid
    unfold Stored
    rw [hser]
    exact Option.some_ne_none ser
  have hok := hcoh.delAll_ok_iff (hcoh.nodup_collected now) hstored
  simp only [hcoh.mem_collected] at hok
  have hremoved : ∀ {s'}, removeExpired P now s = .ok () s' →
      Removed {x | s.Expired P now x} s s' := by
    intro s' hrun
    have hrem := hcoh.delAll_removed hrun
    simpa only [hcoh.mem_collected] using hrem
  constructor
  · rintro ⟨s', hrun, hgone, -⟩ id hid
    refine ⟨(h.entryFound_iff id).mp (hok.mp ⟨s', hrun⟩ id hid), ?_⟩
    exact ((hremoved hrun).gone_iff hid).mp (hgone id hid)
  · intro hdel
    obtain ⟨s', hrun⟩ := hok.mpr fun id hid => (h.entryFound_iff id).mpr (hdel id hid).pinned
    have hrem := hremoved hrun
    exact ⟨s', hrun, fun id hid => (hrem.gone_iff hid).mpr (hdel id hid).zero, hrem.others⟩

/-- After any sequence of calls, `remove_expired` removes exactly the expired blocks if and only if
each of them can be deleted. -/
theorem expires_exactly_iff (hP : P.SerdeLaws) (hB : IdsDistinct P B) {ops : List Op}
    (hops : ∀ op ∈ ops, op.Allowed B fun _ => True) (now : Timestamp) :
    (run P appendDup ops).ExpiresExactly P now ↔
      ∀ id, (run P appendDup ops).Expired P now id → (run P appendDup ops).Deletable id :=
  (reached_run hP hB hops).expiresExactly_iff hP now

theorem expires_exactly_iff_put :
    (run (reference fun _ _ => false) appendAfter [.put sampleBlock]).ExpiresExactly
      (reference fun _ _ => false) 40 := by
  refine (expires_exactly_iff Reference.serdeLaws (idsDistinct_singleton sampleBlock)
    (by simp [Op.Allowed]) 40).mpr fun id _ => ⟨fun m hm => ?_, Finset.notMem_empty _⟩
  cases hm

/-- The expiry of a block that was pinned and then synced ends in a panic. -/
theorem not_expires_exactly :
    ¬ ∀ (P : Primitives) (B : Set Block) (ops : List Op) (now : Timestamp), P.SerdeLaws →
      IdsDistinct P B → (∀ op ∈ ops, op.Allowed B fun _ => True) →
        (run P appendAfter ops).ExpiresExactly P now := by
  intro h
  let P := reference fun _ _ => false
  have hB := idsDistinct_singleton (P := P) sampleBlock
  have hops := allowed_pinned_synced P sampleBlock 5 9
  have hreached : Reached P {sampleBlock} (run P appendAfter [.put sampleBlock,
      .setPin (sampleBlock.id P) true, .hasBeenSynced (sampleBlock.id P) (some 5) 9]) :=
    reached_run Reference.serdeLaws hB hops
  have hexpired : (run P appendAfter [.put sampleBlock, .setPin (sampleBlock.id P) true,
      .hasBeenSynced (sampleBlock.id P) (some 5) 9]).Expired P 40 (sampleBlock.id P) := by
    refine ⟨40, ?_, Nat.le_refl _⟩
    rw [stored_pinned_synced, hasExpiry_toVec Reference.serdeLaws]
    rfl
  have hdeletable := (hreached.expiresExactly_iff Reference.serdeLaws 40).mp
    (h P _ _ 40 Reference.serdeLaws hB hops) _ hexpired
  have hpinned := hdeletable.pinned ⟨true, 5, true⟩
    (by rw [run_pinned_synced, putMeta_self]) rfl rfl
  exact absurd hpinned (by decide)

/-! ## `remove_least_used` -/

/-- The size of a stored block, serialized. -/
def blockSize (s : LmdbRepoStore) (id : BlockId) : Nat := ((s.mainStore id).map List.length).getD 0

theorem SameEntries.blockSize_eq (h : SameEntries s s' id) : s'.blockSize id = s.blockSize id := by
  unfold blockSize
  rw [h.main]

theorem delUntil_cons {size total : Nat} {ids : List BlockId} {r : Block × Nat} {s₁ : LmdbRepoStore}
    (hdel : del P id s = .ok (.ok r) s₁) :
    delUntil P size (id :: ids) total s =
      if size ≤ total + r.2 then .ok (total + r.2) s₁ else
      delUntil P size ids (total + r.2) s₁ := by
  rw [delUntil]
  show EStateM.bind (del P id) _ s = _
  unfold EStateM.bind
  rw [hdel]
  dsimp only
  split <;> rfl

/-- The loop of `remove_least_used` over stored blocks whose LRU entries `del` finds. -/
theorem Coherent.delUntil_run (h : Coherent P s) (size : Nat) {ids : List BlockId}
    (hnodup : ids.Nodup) (hids : ∀ id ∈ ids, s.Stored id ∧ s.EntryFound id) (total : Nat) :
    ∃ s', delUntil P size ids total s =
        .ok (total + ((takeSum s.blockSize size ids total).map s.blockSize).sum) s' ∧
      Removed {x | x ∈ takeSum s.blockSize size ids total} s s' := by
  induction ids generalizing s total with
  | nil => exact ⟨s, rfl, by simpa [takeSum] using Removed.refl s⟩
  | cons id ids ih =>
    obtain ⟨hid, hnodup⟩ := List.nodup_cons.mp hnodup
    rw [List.forall_mem_cons] at hids
    obtain ⟨slice, block, hslice, -, hok, -⟩ := h.del_run hids.1.1
    obtain ⟨s₁, hdel⟩ := hok hids.1.2
    have hrem := h.removed_del hdel
    have hsize : slice.length = s.blockSize id := by
      unfold blockSize
      rw [hslice]
      rfl
    rw [delUntil_cons hdel, takeSum, hsize]
    by_cases hstop : size ≤ total + s.blockSize id
    · rw [if_pos hstop, if_pos hstop]
      exact ⟨s₁, by simp, by simpa using hrem⟩
    · rw [if_neg hstop, if_neg hstop]
      have hsame : ∀ x ∈ ids, SameEntries s s₁ x :=
        fun x hx => hrem.others x fun heq => hid (heq ▸ hx)
      obtain ⟨s', hrun, hrem'⟩ := ih (h.removed hrem) hnodup
        (fun x hx => ⟨(hsame x hx).stored_iff.mpr (hids.2 x hx).1,
          (hsame x hx).entryFound_iff.mpr (hids.2 x hx).2⟩) (total + s.blockSize id)
      have hsizes : ∀ x ∈ ids, s₁.blockSize x = s.blockSize x :=
        fun x hx => (hsame x hx).blockSize_eq
      rw [takeSum_congr hsizes] at hrun hrem'
      have hsum : (takeSum s.blockSize size ids (total + s.blockSize id)).map s₁.blockSize =
          (takeSum s.blockSize size ids (total + s.blockSize id)).map s.blockSize :=
        List.map_congr_left fun x hx => hsizes x ((takeSum_initial ids _).subset hx)
      refine ⟨s', ?_, ?_⟩
      · rw [hrun, hsum, List.map_cons, List.sum_cons, Nat.add_assoc]
      · rw [setOf_mem_cons]
        exact hrem.trans hrem'

/-- The index tables are correct: each LRU entry belongs to a stored block that is synced, not
pinned and last used at the time of the entry, and the expiry list holds the stored blocks with an
expiry. -/
structure IndexInvariants (P : Primitives) (s : LmdbRepoStore) : Prop where
  decodes : ∀ id ser, s.mainStore id = some ser → ∃ b, Block.fromSlice P ser = some b
  expiry : ∀ e id, (e, id) ∈ s.expiryStore ↔ HasExpiry P (s.mainStore id) e
  lru : ∀ t id, (t, id) ∈ s.recentlyUsedStore → s.Stored id ∧ Listed (s.metaStore id) t ∧ t ≠ 0

theorem IndexInvariants.coherent (h : IndexInvariants P s) : Coherent P s :=
  ⟨h.decodes, h.expiry, fun t id _ hmem => (h.lru t id hmem).2.1⟩

/-- After calls with times other than 0 that list stored blocks only, the index tables are
correct. -/
theorem Consistent.indexInvariants (hP : P.SerdeLaws) (h : Consistent P B s)
    (hstored : ListedStored s) :
    IndexInvariants P s where
  decodes id ser hser := by
    obtain ⟨b, -, -, rfl⟩ := h.expiry.main id ser hser
    exact ⟨_, Block.fromSlice_toVec hP b⟩
  expiry := h.expiry.expiry
  lru t id hmem := by
    obtain ⟨m, hm, hs, hp, rfl⟩ := (h.lru t id).mp hmem
    exact ⟨hstored.mem hmem, ⟨m, hm, hs, hp, rfl⟩, (h.timed id m hm).mp hs⟩

/-- `remove_least_used` removes the shortest initial part of the LRU list whose sizes sum to `size`,
returns their sum, and keeps the other entries. No pinned or unsynced block is removed. -/
def ReclaimsShortest (P : Primitives) (s : LmdbRepoStore) (size : Nat) : Prop :=
  ∃ removed s', ShortestSum s.blockSize size (s.recentlyUsedStore.ascending.map Prod.snd) removed ∧
    removeLeastUsed P size s = .ok (removed.map s.blockSize).sum s' ∧
    (∀ id ∈ removed, s'.Gone id ∧ ∃ t, Listed (s.metaStore id) t) ∧
    ∀ id, id ∉ removed → SameEntries s s' id

theorem IndexInvariants.mem_list (h : IndexInvariants P s)
    (hid : id ∈ s.recentlyUsedStore.ascending.map Prod.snd) :
    s.Stored id ∧ s.EntryFound id ∧ (∃ t, Listed (s.metaStore id) t) ∧
      (0, id) ∉ s.recentlyUsedStore := by
  obtain ⟨⟨t, _⟩, hmem, rfl⟩ := List.mem_map.mp hid
  have hmem := MultiMap.mem_ascending.mp hmem
  obtain ⟨hstored, hlisted, -⟩ := h.lru t _ hmem
  refine ⟨hstored, ?_, ⟨t, hlisted⟩, fun hzero => (h.lru 0 _ hzero).2.2 rfl⟩
  obtain ⟨m, hm, -, -, rfl⟩ := hlisted
  intro m' hm' _
  rw [hm] at hm'
  cases hm'
  exact hmem

theorem IndexInvariants.nodup_list (h : IndexInvariants P s) :
    (s.recentlyUsedStore.ascending.map Prod.snd).Nodup := by
  refine List.Nodup.map_on ?_ s.recentlyUsedStore.nodup_ascending
  rintro ⟨t, id⟩ hp ⟨t', id'⟩ hp' rfl
  obtain ⟨m, hm, -, -, rfl⟩ := (h.lru t id (MultiMap.mem_ascending.mp hp)).2.1
  obtain ⟨m', hm', -, -, rfl⟩ := (h.lru t' id (MultiMap.mem_ascending.mp hp')).2.1
  rw [hm] at hm'
  cases hm'
  rfl

theorem IndexInvariants.removeLeastUsed_run (h : IndexInvariants P s) (size : Nat) :
    ∃ removed s', removed = takeSum s.blockSize size
    (s.recentlyUsedStore.ascending.map Prod.snd) 0 ∧
      removeLeastUsed P size s = .ok (removed.map s.blockSize).sum s' ∧
      Removed {x | x ∈ removed} s s' := by
  obtain ⟨s', hrun, hrem⟩ := h.coherent.delUntil_run size h.nodup_list
    (fun id hid => ⟨(h.mem_list hid).1, (h.mem_list hid).2.1⟩) 0
  rw [Nat.zero_add] at hrun
  exact ⟨_, s', rfl, hrun, hrem⟩

theorem IndexInvariants.reclaimsShortest (h : IndexInvariants P s) {size : Nat}
    (hcond : size ≠ 0 ∨ s.recentlyUsedStore = ∅) : s.ReclaimsShortest P size := by
  obtain ⟨removed, s', rfl, hrun, hrem⟩ := h.removeLeastUsed_run size
  refine ⟨_, s', ?_, hrun, fun id hid => ?_, hrem.others⟩
  · obtain hsize | hempty := hcond
    · exact shortestSum_takeSum (Nat.pos_of_ne_zero hsize)
    · have hlist : s.recentlyUsedStore.ascending.map Prod.snd = [] := by
        rw [hempty, List.map_eq_nil_iff]
        exact List.eq_nil_iff_forall_not_mem.mpr fun p hp =>
          Finset.notMem_empty p (MultiMap.mem_ascending.mp hp)
      rw [hlist]
      exact shortestSum_nil
  · have hmem := (takeSum_initial _ 0).subset hid
    obtain ⟨-, -, hlisted, hzero⟩ := h.mem_list hmem
    exact ⟨(hrem.gone_iff hid).mpr hzero, hlisted⟩

/-- The first block of the list is removed, although nothing needs to be. -/
theorem IndexInvariants.not_reclaimsShortest (h : IndexInvariants P s)
    (hlist : s.recentlyUsedStore ≠ ∅) : ¬ s.ReclaimsShortest P 0 := by
  rintro ⟨removed, s', hshortest, hrun, -, hkept⟩
  obtain ⟨taken, s₁, htaken, hrun₁, hrem⟩ := h.removeLeastUsed_run 0
  obtain ⟨⟨t, id⟩, hmem⟩ := Finset.nonempty_iff_ne_empty.mpr hlist
  have hid : id ∈ s.recentlyUsedStore.ascending.map Prod.snd :=
    List.mem_map.mpr ⟨(t, id), MultiMap.mem_ascending.mpr hmem, rfl⟩
  obtain ⟨first, rest, hfirst⟩ := List.exists_cons_of_ne_nil (List.ne_nil_of_mem hid)
  have hstored : s.Stored first := (h.mem_list (hfirst ▸ List.mem_cons_self : first ∈ _)).1
  have hgone : s₁.mainStore first = none := by
    refine hrem.main first ?_
    rw [htaken, hfirst, takeSum, if_pos (Nat.zero_le _)]
    exact List.mem_singleton_self first
  have hs₁ : s₁ = s' := (EStateM.Result.ok.inj (hrun₁.symm.trans hrun)).2
  have hsame := hkept first (by rw [hshortest.eq_nil]; exact List.not_mem_nil)
  exact (hsame.stored_iff.mpr hstored) (hs₁ ▸ hgone)

/-- Where the index tables are correct, `remove_least_used` removes what it should if and only if
some space is asked for or the LRU list is empty. -/
theorem reclaims_shortest_iff (h : IndexInvariants P s) (size : Nat) :
    s.ReclaimsShortest P size ↔ size ≠ 0 ∨ s.recentlyUsedStore = ∅ := by
  constructor
  · intro hreclaims
    by_contra hnot
    obtain ⟨hsize, hlist⟩ := not_or.mp hnot
    obtain rfl : size = 0 := not_not.mp hsize
    exact h.not_reclaimsShortest hlist hreclaims
  · exact h.reclaimsShortest

theorem indexInvariants_sample :
    IndexInvariants (reference fun _ _ => false) (run (reference fun _ _ => false) appendAfter
      [.put sampleBlock, .hasBeenSynced (sampleBlock.id (reference fun _ _ => false))
        (some 9) 1]) := by
  let P := reference fun _ _ => false
  have hstored : (exec P appendAfter (.put sampleBlock) empty).Stored (sampleBlock.id P) := by
    show (putTxn P sampleBlock empty).mainStore (sampleBlock.id P) ≠ none
    rw [putTxn_mainStore, Function.update_self]
    exact Option.some_ne_none _
  refine Consistent.indexInvariants Reference.serdeLaws (B := {sampleBlock}) ?_ ?_
  · exact run_invariant (T := (· ≠ 0)) consistent_empty
      (fun _ _ => Consistent.commit Reference.serdeLaws (idsDistinct_singleton sampleBlock))
      (by simp [Op.Allowed])
  · have hkeep : AllKeepStored P appendAfter
        [.put sampleBlock, .hasBeenSynced (sampleBlock.id P) (some 9) 1] empty :=
      ⟨trivial, .inl hstored, trivial⟩
    exact ListedStored.empty.run hkeep

theorem reclaims_shortest_iff_sample :
    (run (reference fun _ _ => false) appendAfter [.put sampleBlock,
      .hasBeenSynced (sampleBlock.id (reference fun _ _ => false)) (some 9) 1]).ReclaimsShortest
        (reference fun _ _ => false) 1 :=
  (reclaims_shortest_iff indexInvariants_sample 1).mpr (.inl (by decide))

/-- Without need, the only block of the LRU list is removed. -/
theorem not_reclaims_shortest :
    ¬ ∀ (P : Primitives) (s : LmdbRepoStore) (size : Nat), IndexInvariants P s →
      s.ReclaimsShortest P size := by
  intro h
  refine indexInvariants_sample.not_reclaimsShortest ?_ (h _ _ 0 indexInvariants_sample)
  rw [run_put_hasBeenSynced _ (show sampleBlock.expiry = some 40 from rfl)]
  exact Finset.ne_empty_of_mem (mem_putLru.mpr (.inl ⟨rfl, rfl⟩))

end LmdbRepoStore

end Lofire
