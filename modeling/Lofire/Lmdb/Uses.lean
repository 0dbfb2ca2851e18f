import Lofire.Lmdb.Removal

/-!
# Recording a use

`get`, `unpin` and `has_been_synced` file a block in the LRU list with the flag `APPEND_DUP`, and
unwrap the result. LMDB accepts a new entry only after all the entries of its time, so the call
panics where a block with a greater id has the same time.
-/

namespace Lofire

open Lib

namespace LmdbRepoStore

variable {P : Primitives} {appendDup : Finset BlockId → BlockId → Bool} {B : Set Block}
  {s s' : LmdbRepoStore} {id : BlockId} {m : BlockMeta}

/-- A call that can file a block, with its clock reading. -/
inductive Use
  | get (now : Timestamp)
  | unpin
  | hasBeenSynced (when? : Option Timestamp) (now : Timestamp)

namespace Use

variable (P) (u : Use) (s) (id)

def call : StoreM LmdbRepoStore Unit :=
  match u with
  | get now => do let _ ← LmdbRepoStore.get P appendAfter now id
  | unpin => do let _ ← LmdbRepoStore.unpin appendAfter id
  | hasBeenSynced when? now => LmdbRepoStore.hasBeenSynced appendAfter id when? now

/-- The call adds an LRU entry of the block. -/
def Files : Prop :=
  match u with
  | get _ => ∃ m, s.useToRecord id = some m ∧ m.pin = false
  | unpin => ∃ m, s.metaStore id = some m ∧ m.pin = true ∧ m.synced = true
  | hasBeenSynced _ _ => ∀ m, s.metaStore id = some m → m.pin = false ∧ m.synced = false

/-- The time of the LRU entry that the block has after the call. -/
def time : Timestamp :=
  match u, s.metaStore id with
  | get now, _ => now
  | unpin, m? => (m?.map BlockMeta.lastUsed).getD 0
  | hasBeenSynced when? now, m? =>
    ((m?.filter BlockMeta.synced).map BlockMeta.lastUsed).getD (when?.getD now)

/-- The blocks that are filed under that time when the call files its own. `get` has removed the old
entry of the block before. -/
def listed : Finset BlockId :=
  match u, s.metaStore id with
  | get now, some m => (s.deleteLru id m.lastUsed).recentlyUsedStore.values now
  | _, _ => s.recentlyUsedStore.values (u.time s id)

/-- The call does not panic in `add_to_lru`, and the block, where it is synced and not pinned then,
is filed under the time of the call. -/
def Recorded : Prop :=
  (∀ s', u.call P id s ≠ .error .unwrap s') ∧
    ∀ m, (stateAfter (u.call P id s)).metaStore id = some m → m.synced = true → m.pin = false →
      (u.time s id, id) ∈ (stateAfter (u.call P id s)).recentlyUsedStore

/-- If the call files the block, all blocks with the same time have smaller ids. -/
def Accepted : Prop := u.Files s id → ∀ d ∈ u.listed s id, d < id

end Use

/-! ## The three calls -/

theorem addToLru_eq (t : Timestamp) :
    addToLru appendAfter id t s =
      if ∀ d ∈ s.recentlyUsedStore.values t, d < id then
      .ok (s.putLru id t) else .error .unwrap := by
  simp only [addToLru, appendAfter, decide_eq_true_eq]

/-- Recording the use of a block that is listed. -/
theorem recordUse_eq (hp : m.pin = false) (hmem : (m.lastUsed, id) ∈ s.recentlyUsedStore)
    (now : Timestamp) :
    recordUse appendAfter now id m s =
      if ∀ d ∈ (s.deleteLru id m.lastUsed).recentlyUsedStore.values now, d < id then
        .ok (((s.deleteLru id m.lastUsed).putLru id now).putMeta id { m with lastUsed := now })
      else .error .unwrap := by
  have hremove := removeFromLru_ok.mpr ⟨hmem, rfl⟩
  unfold recordUse
  rw [hp, if_neg (by simp), hremove]
  show (addToLru appendAfter id now (s.deleteLru id m.lastUsed) >>= _) = _
  rw [addToLru_eq]
  split <;> rfl

theorem checkBlock_ne_unwrap (ser : Bytes) : checkBlock P id ser ≠ .error .unwrap := by
  unfold checkBlock
  split
  · nofun
  · split <;> nofun

/-- A call that returns or panics elsewhere, with the state after it. -/
theorem recorded_of_stateAfter {u : Use} (hcall : ∀ s', u.call P id s ≠ .error .unwrap s')
    (hstate : stateAfter (u.call P id s) = s')
    (hlisted : ∀ m, s'.metaStore id = some m → m.synced = true → m.pin = false →
      (u.time s id, id) ∈ s'.recentlyUsedStore) : u.Recorded P s id := by
  refine ⟨hcall, ?_⟩
  rw [hstate]
  exact hlisted

theorem recorded_of_ok {u : Use} (hrun : u.call P id s = .ok () s')
    (hlisted : ∀ m, s'.metaStore id = some m → m.synced = true → m.pin = false →
      (u.time s id, id) ∈ s'.recentlyUsedStore) : u.Recorded P s id := by
  refine recorded_of_stateAfter (fun s'' heq => ?_) (by rw [hrun, stateAfter]) hlisted
  rw [hrun] at heq
  cases heq

theorem LruFits.mem (h : LruFits s) (hm : s.metaStore id = some m) (hs : m.synced = true)
    (hp : m.pin = false) : (m.lastUsed, id) ∈ s.recentlyUsedStore :=
  (h id).listed _ ⟨m, hm, hs, hp, rfl⟩

theorem get_eq {ser : Bytes} (hmain : s.mainStore id = some ser) {now : Timestamp}
    (huse : (s.useToRecord id = none ∧ s' = s) ∨
      ∃ m, s.useToRecord id = some m ∧ recordUse appendAfter now id m s = .ok s') :
    LmdbRepoStore.get P appendAfter now id s =
      match checkBlock P id ser with
      | .error p => .error p s'
      | .ok res => .ok res s' := by
  unfold LmdbRepoStore.get
  cases hcheck : checkBlock P id ser with
  | error p =>
    obtain ⟨hread, rfl⟩ | ⟨m, hread, hrec⟩ := huse
    · simp only [hmain, hread, hcheck]
    · simp only [hmain, hread, hrec, hcheck]
  | ok res =>
    obtain ⟨hread, rfl⟩ | ⟨m, hread, hrec⟩ := huse
    · simp only [hmain, hread, hcheck]
    · simp only [hmain, hread, hrec, hcheck]

theorem call_get {ser : Bytes} (hmain : s.mainStore id = some ser) {now : Timestamp}
    (huse : (s.useToRecord id = none ∧ s' = s) ∨
      ∃ m, s.useToRecord id = some m ∧ recordUse appendAfter now id m s = .ok s') :
    (∀ s'', (Use.get now).call P id s ≠ .error .unwrap s'') ∧
      stateAfter ((Use.get now).call P id s) = s' := by
  show (∀ s'', EStateM.bind _ _ s ≠ _) ∧ stateAfter (EStateM.bind _ _ s) = s'
  unfold EStateM.bind
  rw [get_eq hmain huse]
  cases hcheck : checkBlock P id ser with
  | error p =>
    refine ⟨fun s'' heq => ?_, rfl⟩
    cases heq
    exact checkBlock_ne_unwrap ser hcheck
  | ok res =>
    refine ⟨fun s'' heq => ?_, rfl⟩
    cases heq

theorem call_get_panics {ser : Bytes} (hmain : s.mainStore id = some ser) {now : Timestamp}
    (hread : s.useToRecord id = some m)
    (huse : recordUse appendAfter now id m s = .error .unwrap) :
    (Use.get now).call P id s = .error .unwrap s := by
  have hget : LmdbRepoStore.get P appendAfter now id s = .error .unwrap s := by
    unfold LmdbRepoStore.get
    simp only [hmain, hread, huse]
  show EStateM.bind _ _ s = _
  unfold EStateM.bind
  rw [hget]

theorem recorded_get_iff (h : LruFits s) (hid : s.Stored id) (now : Timestamp) :
    (Use.get now).Recorded P s id ↔ (Use.get now).Accepted s id := by
  obtain ⟨ser, hmain⟩ := Option.ne_none_iff_exists'.mp hid
  cases hread : s.useToRecord id with
  | none =>
    obtain ⟨hcall, hstate⟩ := call_get (P := P) hmain (.inl ⟨hread, rfl⟩)
    refine iff_of_true (recorded_of_stateAfter hcall hstate fun m hm hs _ => ?_) ?_
    · rw [useToRecord, hmain, hm] at hread
      simp [hs] at hread
    · rintro ⟨m, hm, -⟩
      rw [hread] at hm
      cases hm
  | some m =>
    obtain ⟨hm, hs⟩ := useToRecord_eq hread
    cases hp : m.pin with
    | true =>
      have hrec : recordUse appendAfter now id m s =
          .ok (s.putMeta id { m with lastUsed := now }) := by
        unfold recordUse
        rw [hp]
        rfl
      obtain ⟨hcall, hstate⟩ := call_get (P := P) hmain (.inr ⟨m, hread, hrec⟩)
      refine iff_of_true (recorded_of_stateAfter hcall hstate fun m' hm' _ hp' => ?_) ?_
      · rw [putMeta_self] at hm'
        cases hm'
        rw [hp] at hp'
        cases hp'
      · rintro ⟨m', hm', hp'⟩
        rw [hread] at hm'
        cases hm'
        rw [hp] at hp'
        cases hp'
    | false =>
      have hfiles : (Use.get now).Files s id := ⟨m, hread, hp⟩
      have hlisted : (Use.get now).listed s id =
          (s.deleteLru id m.lastUsed).recentlyUsedStore.values now := by
        unfold Use.listed
        rw [hm]
      have hrec := recordUse_eq hp (h.mem hm hs hp) now
      by_cases hacc : ∀ d ∈ (s.deleteLru id m.lastUsed).recentlyUsedStore.values now, d < id
      · rw [if_pos hacc] at hrec
        obtain ⟨hcall, hstate⟩ := call_get (P := P) hmain (.inr ⟨m, hread, hrec⟩)
        refine iff_of_true (recorded_of_stateAfter hcall hstate fun _ _ _ _ => ?_) ?_
        · exact mem_putLru.mpr (.inl ⟨rfl, rfl⟩)
        · intro _
          rw [hlisted]
          exact hacc
      · rw [if_neg hacc] at hrec
        refine iff_of_false ?_ fun h => hacc ?_
        · exact fun hrecorded => hrecorded.1 s (call_get_panics hmain hread hrec)
        · rw [← hlisted]
          exact h hfiles

theorem call_unpin : Use.unpin.call P id s =
    match setPinTxn appendAfter id false s with
    | .ok s' => .ok () s'
    | .error p => .error p s := by
  show EStateM.bind _ _ s = _
  unfold EStateM.bind LmdbRepoStore.unpin setPin write
  cases hrun : setPinTxn appendAfter id false s with
  | ok s' =>
    simp only [hrun]
    rfl
  | error p =>
    simp only [hrun]
    rfl

theorem recorded_unpin_iff (h : LruFits s) :
    Use.unpin.Recorded P s id ↔ Use.unpin.Accepted s id := by
  have hok : ∀ {s'}, setPinTxn appendAfter id false s = .ok s' →
      Use.unpin.call P id s = .ok () s' := by
    intro s' hrun
    rw [call_unpin, hrun]
  cases hm : s.metaStore id with
  | none =>
    have hrun := hok (show setPinTxn appendAfter id false s = .ok s by simp [setPinTxn, hm])
    refine iff_of_true (recorded_of_ok hrun ?_) ?_
    · intro m' hm'
      rw [hm] at hm'
      cases hm'
    · rintro ⟨m', hm', -⟩
      rw [hm] at hm'
      cases hm'
  | some m =>
    have htime : Use.unpin.time s id = m.lastUsed := by
      unfold Use.time
      rw [hm]
      rfl
    cases hp : m.pin with
    | false =>
      have hrun := hok (show setPinTxn appendAfter id false s = .ok s by simp [setPinTxn, hm, hp])
      refine iff_of_true (recorded_of_ok hrun ?_) ?_
      · intro m' hm' hs' hp'
        rw [hm] at hm'
        cases hm'
        rw [htime]
        exact h.mem hm hs' hp
      · rintro ⟨m', hm', hp', -⟩
        rw [hm] at hm'
        cases hm'
        rw [hp] at hp'
        cases hp'
    | true =>
      cases hs : m.synced with
      | false =>
        have hrun := hok (show setPinTxn appendAfter id false s =
          .ok (s.putMeta id { m with pin := false }) by simp [setPinTxn, hm, hp, hs])
        refine iff_of_true (recorded_of_ok hrun ?_) ?_
        · intro m' hm' hs'
          rw [putMeta_self] at hm'
          cases hm'
          rw [hs] at hs'
          cases hs'
        · rintro ⟨m', hm', -, hs'⟩
          rw [hm] at hm'
          cases hm'
          rw [hs] at hs'
          cases hs'
      | true =>
        have hlisted : Use.unpin.listed s id = s.recentlyUsedStore.values m.lastUsed := by
          unfold Use.listed
          rw [htime]
        have htxn : setPinTxn appendAfter id false s = do
            let s ← addToLru appendAfter id m.lastUsed s
            return s.putMeta id { m with pin := false } := by
          simp [setPinTxn, hm, hp, hs]
        rw [addToLru_eq] at htxn
        by_cases hacc : ∀ d ∈ s.recentlyUsedStore.values m.lastUsed, d < id
        · rw [if_pos hacc] at htxn
          have hrun := hok htxn
          refine iff_of_true (recorded_of_ok hrun ?_) ?_
          · intro _ _ _ _
            rw [htime]
            exact mem_putLru.mpr (.inl ⟨rfl, rfl⟩)
          · intro _
            rw [hlisted]
            exact hacc
        · rw [if_neg hacc] at htxn
          refine iff_of_false (fun hrecorded => hrecorded.1 s ?_) fun h => hacc ?_
          · rw [call_unpin, htxn]
            rfl
          · rw [← hlisted]
            exact h ⟨m, hm, hp, hs⟩

theorem call_hasBeenSynced {when? : Option Timestamp} {now : Timestamp} :
    (Use.hasBeenSynced when? now).call P id s =
      match hasBeenSyncedTxn appendAfter id (when?.getD now) s with
      | .ok s' => .ok () s'
      | .error p => .error p s := by
  unfold Use.call LmdbRepoStore.hasBeenSynced write
  cases hrun : hasBeenSyncedTxn appendAfter id (when?.getD now) s with
  | ok s' =>
    simp only [hrun]
    rfl
  | error p =>
    simp only [hrun]
    rfl

theorem recorded_hasBeenSynced_iff (h : LruFits s) (when? : Option Timestamp) (now : Timestamp) :
    (Use.hasBeenSynced when? now).Recorded P s id ↔
    (Use.hasBeenSynced when? now).Accepted s id := by
  have hok : ∀ {s'}, hasBeenSyncedTxn appendAfter id (when?.getD now) s = .ok s' →
      (Use.hasBeenSynced when? now).call P id s = .ok () s' := by
    intro s' hrun
    rw [call_hasBeenSynced, hrun]
  -- the call files the block under `when?.getD now`, with the meta `m'`
  have hfiled : ∀ m', (Use.hasBeenSynced when? now).Files s id →
      (Use.hasBeenSynced when? now).time s id = when?.getD now →
      hasBeenSyncedTxn appendAfter id (when?.getD now) s = (do
        let s ← addToLru appendAfter id (when?.getD now) s
        return s.putMeta id m') →
      ((Use.hasBeenSynced when? now).Recorded P s id ↔
        (Use.hasBeenSynced when? now).Accepted s id) := by
    intro m' hfiles htime htxn
    have hlisted : (Use.hasBeenSynced when? now).listed s id =
        s.recentlyUsedStore.values (when?.getD now) := by
      unfold Use.listed
      rw [htime]
    rw [addToLru_eq] at htxn
    by_cases hacc : ∀ d ∈ s.recentlyUsedStore.values (when?.getD now), d < id
    · rw [if_pos hacc] at htxn
      refine iff_of_true (recorded_of_ok (hok htxn) fun _ _ _ _ => ?_) fun _ => ?_
      · rw [htime]
        exact mem_putLru.mpr (.inl ⟨rfl, rfl⟩)
      · rw [hlisted]
        exact hacc
    · rw [if_neg hacc] at htxn
      refine iff_of_false (fun hrecorded => hrecorded.1 s ?_) fun h => hacc ?_
      · rw [call_hasBeenSynced, htxn]
        rfl
      · rw [← hlisted]
        exact h hfiles
  cases hm : s.metaStore id with
  | none =>
    refine hfiled ⟨false, when?.getD now, true⟩ ?_ ?_ ?_
    · intro m' hm'
      rw [hm] at hm'
      cases hm'
    · simp [Use.time, hm]
    · simp [hasBeenSyncedTxn, hm]
  | some m =>
    cases hs : m.synced with
    | true =>
      have hrun := hok (show _ = Except.ok s by simp [hasBeenSyncedTxn, hm, hs])
      refine iff_of_true (recorded_of_ok hrun fun m' hm' hs' hp' => ?_) fun hfiles => ?_
      · rw [hm] at hm'
        cases hm'
        have htime : (Use.hasBeenSynced when? now).time s id = m.lastUsed := by
          simp [Use.time, hm, Option.filter, hs]
        rw [htime]
        exact h.mem hm hs' hp'
      · have hnot := (hfiles m hm).2
        rw [hs] at hnot
        cases hnot
    | false =>
      cases hp : m.pin with
      | true =>
        have hrun := hok (show _ = Except.ok
          (s.putMeta id { m with synced := true, lastUsed := when?.getD now }) by
            simp [hasBeenSyncedTxn, hm, hs, hp])
        refine iff_of_true (recorded_of_ok hrun fun m' hm' _ hp' => ?_) fun hfiles => ?_
        · rw [putMeta_self] at hm'
          cases hm'
          rw [hp] at hp'
          cases hp'
        · have hnot := (hfiles m hm).1
          rw [hp] at hnot
          cases hnot
      | false =>
        refine hfiled { m with synced := true, lastUsed := when?.getD now } ?_ ?_ ?_
        · intro m' hm'
          rw [hm] at hm'
          cases hm'
          exact ⟨hp, hs⟩
        · simp [Use.time, hm, Option.filter, hs]
        · simp [hasBeenSyncedTxn, hm, hs, hp]

theorem Reached.recorded_iff (h : Reached P B s) (hid : s.Stored id) (u : Use) :
    u.Recorded P s id ↔ u.Accepted s id := by
  cases u with
  | get now => exact recorded_get_iff h.lru hid now
  | unpin => exact recorded_unpin_iff h.lru
  | hasBeenSynced when? now => exact recorded_hasBeenSynced_iff h.lru when? now

/-! ## Runs -/

/-- After any sequence of calls, the use of a stored block is recorded if and only if the blocks
that are filed under its time have smaller ids. -/
theorem use_recorded_iff (hP : P.SerdeLaws) (hB : IdsDistinct P B) {ops : List Op}
    (hops : ∀ op ∈ ops, op.Allowed B fun _ => True) (hid : (run P appendAfter ops).Stored id)
    (u : Use) : u.Recorded P (run P appendAfter ops) id ↔ u.Accepted (run P appendAfter ops) id :=
  (reached_run hP hB hops).recorded_iff hid u

theorem use_recorded_iff_put :
    (Use.hasBeenSynced (some 5) 9).Recorded (reference fun _ _ => false)
      (run (reference fun _ _ => false) appendAfter [.put sampleBlock])
      (sampleBlock.id (reference fun _ _ => false)) := by
  refine (use_recorded_iff Reference.serdeLaws (idsDistinct_singleton sampleBlock)
    (by simp [Op.Allowed]) (stored_put _ sampleBlock) _).mpr fun _ d hd => ?_
  exact absurd (MultiMap.mem_values.mp hd) (Finset.notMem_empty _)

/-- A block with a smaller id than `sampleBlock`. -/
def smallerBlock : Block :=
  Block.new (reference fun _ _ => false) [] (.objectIdList []) none [2] none

theorem smallerBlock_lt :
    smallerBlock.id (reference fun _ _ => false) < sampleBlock.id (reference fun _ _ => false) := by
  decide +kernel

/-- Two blocks are synced at the same time, the one with the smaller id last. -/
theorem not_use_recorded :
    ¬ ∀ (P : Primitives) (B : Set Block) (ops : List Op) (id : BlockId) (u : Use), P.SerdeLaws →
      IdsDistinct P B → (∀ op ∈ ops, op.Allowed B fun _ => True) →
      (run P appendAfter ops).Stored id →
        u.Recorded P (run P appendAfter ops) id := by
  intro h
  let P := reference fun _ _ => false
  have hne : smallerBlock.id P ≠ sampleBlock.id P := ne_of_lt smallerBlock_lt
  have hB : IdsDistinct P {sampleBlock, smallerBlock} := by
    rintro _ (rfl | rfl) _ (rfl | rfl) heq
    · rfl
    · exact absurd heq.symm hne
    · exact absurd heq hne
    · rfl
  have hops : ∀ op ∈ [Op.put sampleBlock, .hasBeenSynced (sampleBlock.id P) (some 5) 9,
    .put smallerBlock],
      op.Allowed {sampleBlock, smallerBlock} fun _ => True := by
    simp [Op.Allowed]
  have hrun : run P appendAfter [.put sampleBlock, .hasBeenSynced (sampleBlock.id P) (some 5) 9,
      .put smallerBlock] = putTxn P smallerBlock (run P appendAfter
        [.put sampleBlock, .hasBeenSynced (sampleBlock.id P) (some 5) 9]) := rfl
  rw [run_put_hasBeenSynced P (show sampleBlock.expiry = some 40 from rfl)] at hrun
  have hstored : (run P appendAfter [.put sampleBlock, .hasBeenSynced (sampleBlock.id P) (some 5) 9,
      .put smallerBlock]).Stored (smallerBlock.id P) := by
    unfold Stored
    rw [hrun, putTxn_mainStore, Function.update_self]
    exact Option.some_ne_none _
  have hreached : Reached P {sampleBlock, smallerBlock} (run P appendAfter [.put sampleBlock,
      .hasBeenSynced (sampleBlock.id P) (some 5) 9, .put smallerBlock]) :=
    reached_run Reference.serdeLaws hB hops
  have hmeta : (run P appendAfter [.put sampleBlock, .hasBeenSynced (sampleBlock.id P) (some 5) 9,
      .put smallerBlock]).metaStore (smallerBlock.id P) = none := by
    rw [hrun, putTxn_metaStore, putMeta_of_ne hne]
    rfl
  have haccepted := (hreached.recorded_iff hstored (.hasBeenSynced (some 5) 9)).mp
    (h P _ _ _ _ Reference.serdeLaws hB hops hstored)
  have hlt : sampleBlock.id P < smallerBlock.id P := by
    refine haccepted ?_ (sampleBlock.id P) ?_
    · intro m hm
      rw [hmeta] at hm
      cases hm
    · unfold Use.listed
      rw [hmeta, MultiMap.mem_values, hrun, putTxn_recentlyUsedStore]
      have htime : (Use.hasBeenSynced (some 5) 9).time (run P appendAfter [.put sampleBlock,
          .hasBeenSynced (sampleBlock.id P) (some 5) 9, .put smallerBlock])
            (smallerBlock.id P) = 5 := by
        simp [Use.time, hmeta]
      rw [hrun] at htime
      rw [htime]
      exact mem_putLru.mpr (.inl ⟨rfl, rfl⟩)
  exact lt_asymm hlt smallerBlock_lt

end LmdbRepoStore

end Lofire
