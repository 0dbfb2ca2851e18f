import Lofire.Lmdb.Indexes
import Lofire.Reference

/-!
# Runs of the block store

The calls of an `LmdbRepoStore` as one type `Op`. A call moves the store by committed transactions
(`exec_commits`): `remove_expired` and `remove_least_used` by any number of them, and a transaction
that panics by none. An invariant of the committed transactions thus holds after every sequence of
calls (`run_invariant`).
-/

namespace Lofire

open Lib

namespace LmdbRepoStore

/-- A call, with its clock reading. -/
inductive Op
  | put (block : Block)
  | get (now : Timestamp) (id : BlockId)
  | del (id : BlockId)
  | setPin (id : BlockId) (add : Bool)
  | hasBeenSynced (id : BlockId) (when? : Option Timestamp) (now : Timestamp)
  | removeExpired (now : Timestamp)
  | removeLeastUsed (size : Nat)

/-- The state after a call, whether it returned or panicked. -/
def stateAfter {α : Type} : EStateM.Result Panic LmdbRepoStore α → LmdbRepoStore
  | .ok _ s => s
  | .error _ s => s

section

variable (P : Primitives) (appendDup : Finset BlockId → BlockId → Bool)

/-- The store after a call. -/
def exec : Op → LmdbRepoStore → LmdbRepoStore
  | .put block, s => stateAfter (put P block s)
  | .get now id, s => stateAfter (get P appendDup now id s)
  | .del id, s => stateAfter (del P id s)
  | .setPin id add, s => stateAfter (setPin appendDup id add s)
  | .hasBeenSynced id when? now, s => stateAfter (hasBeenSynced appendDup id when? now s)
  | .removeExpired now, s => stateAfter (removeExpired P now s)
  | .removeLeastUsed size, s => stateAfter (removeLeastUsed P size s)

/-- The store after a sequence of calls. -/
def run (ops : List Op) : LmdbRepoStore := ops.foldl (fun s op => exec P appendDup op s) empty

/-- The call puts blocks of `B` only, and the times it records satisfy `T`. -/
def Op.Allowed (B : Set Block) (T : Timestamp → Prop) : Op → Prop
  | .put block => block ∈ B
  | .get now _ => T now
  | .hasBeenSynced _ when? now => T (when?.getD now)
  | _ => True

/-- A committed write transaction. -/
inductive Commit (B : Set Block) (T : Timestamp → Prop) : LmdbRepoStore → LmdbRepoStore → Prop
  | recordUse {s s' : LmdbRepoStore} {now : Timestamp} {id : BlockId} {m : BlockMeta} (ht : T now)
      (hread : s.useToRecord id = some m) (h : recordUse appendDup now id m s = .ok s') :
      Commit B T s s'
  | put {s : LmdbRepoStore} {block : Block} (hb : block ∈ B) : Commit B T s (putTxn P block s)
  | del {s s' : LmdbRepoStore} {id : BlockId} {slice : Bytes} {block : Block}
      (hmain : s.mainStore id = some slice) (hblock : Block.fromSlice P slice = some block)
      (h : delTxn id block s = .ok s') : Commit B T s s'
  | setPin {s s' : LmdbRepoStore} {id : BlockId} {add : Bool}
      (h : setPinTxn appendDup id add s = .ok s') : Commit B T s s'
  | hasBeenSynced {s s' : LmdbRepoStore} {id : BlockId} {now : Timestamp} (ht : T now)
      (h : hasBeenSyncedTxn appendDup id now s = .ok s') : Commit B T s s'

end

variable {P : Primitives} {appendDup : Finset BlockId → BlockId → Bool} {B : Set Block}
  {T : Timestamp → Prop}

/-- Any number of committed transactions. -/
abbrev Commits (P : Primitives) (appendDup : Finset BlockId → BlockId → Bool) (B : Set Block)
    (T : Timestamp → Prop) : LmdbRepoStore → LmdbRepoStore → Prop :=
  Relation.ReflTransGen (Commit P appendDup B T)

/-! ## A call is a sequence of committed transactions -/

theorem stateAfter_write {α : Type} (txn : LmdbRepoStore → Except Panic (α × LmdbRepoStore))
    (s : LmdbRepoStore) :
    stateAfter (write txn s) = s ∨ ∃ a s', txn s = .ok (a, s') ∧ stateAfter (write txn s) = s' := by
  unfold write
  cases h : txn s with
  | error p => exact .inl rfl
  | ok p => exact .inr ⟨p.1, p.2, rfl, rfl⟩

/-- A `del` is committed, does not find the block, or panics. -/
theorem del_cases (P : Primitives) (id : BlockId) (s : LmdbRepoStore) :
    (∃ slice s' block, del P id s = .ok (.ok (block, slice.length)) s' ∧
      s.mainStore id = some slice ∧ Block.fromSlice P slice = some block ∧
        delTxn id block s = .ok s') ∨
      (∃ e, del P id s = .ok (.error e) s) ∨ ∃ p, del P id s = .error p s := by
  unfold del write
  dsimp only
  cases hmain : s.mainStore id with
  | none => exact .inr (.inl ⟨_, rfl⟩)
  | some slice =>
    dsimp only
    cases hblock : Block.fromSlice P slice with
    | none => exact .inr (.inr ⟨_, rfl⟩)
    | some block =>
      dsimp only
      cases htxn : delTxn id block s with
      | error p => exact .inr (.inr ⟨p, rfl⟩)
      | ok s' => exact .inl ⟨slice, s', block, rfl, rfl, hblock, htxn⟩

theorem del_commits (id : BlockId) (s : LmdbRepoStore) :
    Commits P appendDup B T s (stateAfter (del P id s)) := by
  obtain ⟨slice, s', block, hrun, hmain, hblock, htxn⟩ | ⟨e, hrun⟩ | ⟨p, hrun⟩ := del_cases P id s
  · rw [hrun]
    exact .single (.del hmain hblock htxn)
  · rw [hrun]
    exact .refl
  · rw [hrun]
    exact .refl

/-- What holds after a call, and then after what follows it, holds in the end. -/
theorem stateAfter_bind {α β : Type} {x : StoreM LmdbRepoStore α} {f : α → StoreM LmdbRepoStore β}
    {I : LmdbRepoStore → Prop} (hx : I (stateAfter (x s)))
    (hf : ∀ a s', x s = .ok a s' → I s' → I (stateAfter (f a s'))) :
    I (stateAfter ((x >>= f) s)) := by
  show I (stateAfter (EStateM.bind x f s))
  unfold EStateM.bind
  cases hrun : x s with
  | error p s' =>
    rw [hrun] at hx
    exact hx
  | ok a s' =>
    rw [hrun] at hx
    exact hf a s' hrun hx

theorem delAll_commits (ids : List BlockId) (s : LmdbRepoStore) :
    Commits P appendDup B T s (stateAfter (delAll P ids s)) := by
  induction ids generalizing s with
  | nil => exact .refl
  | cons id ids ih =>
    refine stateAfter_bind (del_commits id s) fun res s' _ hdel => ?_
    cases res with
    | error e => exact hdel
    | ok r => exact hdel.trans (ih s')

theorem delUntil_commits (size : Nat) (ids : List BlockId) (total : Nat) (s : LmdbRepoStore) :
    Commits P appendDup B T s (stateAfter (delUntil P size ids total s)) := by
  induction ids generalizing s total with
  | nil => exact .refl
  | cons id ids ih =>
    refine stateAfter_bind (del_commits id s) fun res s' _ hdel => ?_
    cases res with
    | error e => exact hdel
    | ok r =>
      dsimp only
      split
      · exact hdel
      · exact hdel.trans (ih _ s')

theorem get_commits {now : Timestamp} (ht : T now) (id : BlockId) (s : LmdbRepoStore) :
    Commits P appendDup B T s (stateAfter (get P appendDup now id s)) := by
  unfold get
  cases hmain : s.mainStore id with
  | none => exact .refl
  | some blockSer =>
    cases hread : s.useToRecord id with
    | none =>
      dsimp only
      cases checkBlock P id blockSer <;> exact .refl
    | some m =>
      dsimp only
      cases hrun : recordUse appendDup now id m s with
      | error p => exact .refl
      | ok s' =>
        have hcommit : Commit P appendDup B T s s' := .recordUse ht hread hrun
        cases checkBlock P id blockSer <;> exact .single hcommit

theorem exec_commits {op : Op} (h : op.Allowed B T) (s : LmdbRepoStore) :
    Commits P appendDup B T s (exec P appendDup op s) := by
  cases op with
  | put block => exact .single (.put h)
  | get now id => exact get_commits h id s
  | del id => exact del_commits id s
  | setPin id add =>
    obtain hs | ⟨a, s', htxn, hs⟩ := stateAfter_write _ s
    · rw [exec, setPin, hs]
    · rw [exec, setPin, hs]
      obtain ⟨s₁, h₁, htxn⟩ := bind_eq_ok.mp htxn
      cases htxn
      exact .single (.setPin h₁)
  | hasBeenSynced id when? now =>
    obtain hs | ⟨a, s', htxn, hs⟩ := stateAfter_write _ s
    · rw [exec, hasBeenSynced, hs]
    · rw [exec, hasBeenSynced, hs]
      obtain ⟨s₁, h₁, htxn⟩ := bind_eq_ok.mp htxn
      cases htxn
      exact .single (.hasBeenSynced h h₁)
  | removeExpired now => exact delAll_commits _ s
  | removeLeastUsed size => exact delUntil_commits size _ 0 s

/-- What holds of the empty store and is kept by committed transactions holds after every run. -/
theorem run_invariant {I : LmdbRepoStore → Prop} (hempty : I empty)
    (hstep : ∀ s s', Commit P appendDup B T s s' → I s → I s') {ops : List Op}
    (hops : ∀ op ∈ ops, op.Allowed B T) : I (run P appendDup ops) := by
  refine List.foldlRecOn ops _ hempty fun s hs op hop => ?_
  have hkeep : ∀ s', Commits P appendDup B T s s' → I s' := by
    intro s' hcommits
    induction hcommits with
    | refl => exact hs
    | tail _ hcommit ih => exact hstep _ _ hcommit ih
  exact hkeep _ (exec_commits (hops op hop) s)

/-! ## The indexes -/

/-- Both index tables are correct, and the times are recorded. -/
structure Consistent (P : Primitives) (B : Set Block) (s : LmdbRepoStore) : Prop where
  lru : LruIndexed s
  timed : Timed s
  expiry : ExpiryIndexed P B s

theorem lruIndexed_empty : LruIndexed empty :=
  fun _ _ => iff_of_false (Finset.notMem_empty _) fun ⟨_, h, _⟩ => nomatch h

theorem consistent_empty : Consistent P B empty where
  lru := lruIndexed_empty
  timed _ _ h := nomatch h
  expiry := {
    main := fun _ _ h => nomatch h
    expiry := fun e _ => iff_of_false (Finset.notMem_empty _) (not_hasExpiry_none e) }

theorem ExpiryIndexed.commit (hP : P.SerdeLaws) (hB : IdsDistinct P B) {s s' : LmdbRepoStore}
    (hcommit : Commit P appendDup B T s s') (h : ExpiryIndexed P B s) : ExpiryIndexed P B s' := by
  cases hcommit with
  | recordUse ht hread hrun =>
    obtain ⟨hmain, hexp⟩ := recordUse_frame hrun
    exact expiryIndexed_congr hmain hexp h
  | put hb => exact h.putTxn hP hB hb
  | del hmain hblock hrun => exact h.delTxn hmain hblock hrun
  | setPin hrun =>
    obtain ⟨hmain, hexp⟩ := setPinTxn_frame hrun
    exact expiryIndexed_congr hmain hexp h
  | hasBeenSynced ht hrun =>
    obtain ⟨hmain, hexp⟩ := hasBeenSyncedTxn_frame hrun
    exact expiryIndexed_congr hmain hexp h

theorem Consistent.commit (hP : P.SerdeLaws) (hB : IdsDistinct P B) {s s' : LmdbRepoStore}
    (hcommit : Commit P appendDup B (· ≠ 0) s s') (h : Consistent P B s) : Consistent P B s' := by
  have hexpiry := h.expiry.commit hP hB hcommit
  cases hcommit with
  | recordUse ht hread hrun =>
    obtain ⟨hm, hs⟩ := useToRecord_eq hread
    exact ⟨h.lru.recordUse hs (fun hp => ⟨_, hm, hp⟩) (fun _ => hm) hrun,
      h.timed.recordUse hs ht hrun, hexpiry⟩
  | @put block hb =>
    refine ⟨lruIndexed_congr (putTxn_metaStore block) (putTxn_recentlyUsedStore block) h.lru, ?_,
      hexpiry⟩
    unfold Timed
    rw [putTxn_metaStore]
    exact h.timed
  | del hmain hblock hrun =>
    exact ⟨h.lru.delTxn (h.timed.delSeesLru _) hrun, h.timed.delTxn hrun, hexpiry⟩
  | setPin hrun => exact ⟨h.lru.setPinTxn hrun, h.timed.setPinTxn hrun, hexpiry⟩
  | hasBeenSynced ht hrun =>
    exact ⟨h.lru.hasBeenSyncedTxn hrun, h.timed.hasBeenSyncedTxn ht hrun, hexpiry⟩

/-- After any sequence of calls with times other than 0, the LRU list holds exactly the synced
blocks that are not pinned, and the expiry list exactly the stored blocks with an expiry. -/
theorem indexes_of_run (hP : P.SerdeLaws) (hB : IdsDistinct P B) {ops : List Op}
    (hops : ∀ op ∈ ops, op.Allowed B (· ≠ 0)) :
    (∀ t id, (t, id) ∈ (run P appendDup ops).recentlyUsedStore ↔
      ∃ m, (run P appendDup ops).metaStore id = some m ∧ m.synced = true ∧ m.pin = false ∧
        m.lastUsed = t) ∧
    ∀ e id, (e, id) ∈ (run P appendDup ops).expiryStore ↔
      ∃ ser b, (run P appendDup ops).mainStore id = some ser ∧ Block.fromSlice P ser = some b ∧
        b.expiry = some e := by
  have h : Consistent P B (run P appendDup ops) :=
    run_invariant consistent_empty (fun _ _ => Consistent.commit hP hB) hops
  exact ⟨h.lru, h.expiry.expiry⟩

/-- A block that is put in the empty store and synced. -/
theorem run_put_hasBeenSynced (P : Primitives) {b : Block} {e : Timestamp} (he : b.expiry = some e)
    (t now : Timestamp) :
    run P appendAfter [.put b, .hasBeenSynced (b.id P) (some t) now] =
      (((empty.putMain (b.id P) (b.toVec P)).putExpiry (b.id P) e).putLru (b.id P) t).putMeta
        (b.id P) ⟨false, t, true⟩ := by
  have hput : exec P appendAfter (.put b) empty =
      (empty.putMain (b.id P) (b.toVec P)).putExpiry (b.id P) e := by
    simp [exec, put, write, stateAfter, putTxn, he]
  have hadd : addToLru appendAfter (b.id P) t
      ((empty.putMain (b.id P) (b.toVec P)).putExpiry (b.id P) e) =
        .ok (((empty.putMain (b.id P) (b.toVec P)).putExpiry (b.id P) e).putLru (b.id P) t) :=
    addToLru_ok.mpr ⟨by simp [appendAfter, putExpiry, putMain, empty], rfl⟩
  have hsynced : hasBeenSyncedTxn appendAfter (b.id P) t
      ((empty.putMain (b.id P) (b.toVec P)).putExpiry (b.id P) e) =
        .ok ((((empty.putMain (b.id P) (b.toVec P)).putExpiry (b.id P) e).putLru (b.id P) t).putMeta
          (b.id P) ⟨false, t, true⟩) := by
    show addToLru _ _ _ _ >>= _ = _
    rw [hadd]
    rfl
  rw [run, List.foldl_cons, List.foldl_cons, List.foldl_nil, hput, exec, hasBeenSynced, write]
  simp only [Option.getD_some, hsynced]
  rfl

theorem indexes_of_run_sample :
    ∃ b : Block, (9, b.id (reference fun _ _ => false)) ∈
        (run (reference fun _ _ => false) appendAfter
          [.put b, .hasBeenSynced (b.id (reference fun _ _ => false))
            (some 9) 1]).recentlyUsedStore ∧
      (40, b.id (reference fun _ _ => false)) ∈
        (run (reference fun _ _ => false) appendAfter
          [.put b, .hasBeenSynced (b.id (reference fun _ _ => false)) (some 9) 1]).expiryStore := by
  let P := reference fun _ _ => false
  let b := Block.new P [] (.objectIdList []) (some 40) [1, 2, 3] none
  have hops : ∀ op ∈ [Op.put b, .hasBeenSynced (b.id P) (some 9) 1], op.Allowed {b} (· ≠ 0) := by
    simp [Op.Allowed]
  obtain ⟨hlru, hexp⟩ := indexes_of_run (P := P) Reference.serdeLaws
    (fun b₁ h₁ b₂ h₂ _ => by rw [h₁, h₂]) hops
  have hrun := run_put_hasBeenSynced P (show b.expiry = some 40 from rfl) 9 1
  refine ⟨b, (hlru 9 (b.id P)).mpr ⟨⟨false, 9, true⟩, ?_, rfl, rfl, rfl⟩,
    (hexp 40 (b.id P)).mpr ⟨b.toVec P, { b with id? := none, key := none }, ?_,
      Block.fromSlice_toVec Reference.serdeLaws b, rfl⟩⟩
  · rw [hrun, putMeta_self]
  · rw [hrun]
    exact Function.update_self ..

end LmdbRepoStore

end Lofire
