import Lofire.Lmdb.Clocked

/-!
# The two block stores return the same results

`HashMapRepoStore` and `LmdbRepoStore` implement the trait `RepoStore`. Any sequence of calls of the
trait, made on both from the empty store, returns the same results on both (`trace_same`): the LMDB
store keeps the blocks of the hash map serialized, and has no meta as long as no block is pinned or
synced (`Linked`).
-/

namespace Lofire

open Lib

namespace RepoStore

/-- A call of the trait `RepoStore`. -/
inductive Call
  | put (block : Block)
  | get (id : BlockId)
  | del (id : BlockId)

/-- What a call returns. The size that `del` has reclaimed is left out. -/
inductive Outcome
  | id (id : BlockId)
  | block (block : Block)
  | error (e : StorageError)

/-- The result of `get`, or the block that `del` returns. -/
def Outcome.ofBlock : Except StorageError Block → Outcome
  | .ok b => block b
  | .error e => error e

section

variable {σ : Type} (S : RepoStore σ)

def perform : Call → StoreM σ Outcome
  | .put b => do
    match ← S.put b with
    | .ok id => return .id id
    | .error e => return .error e
  | .get id => do return .ofBlock (← S.get id)
  | .del id => do return .ofBlock ((← S.del id).map Prod.fst)

/-- The results of a sequence of calls. -/
def trace : List Call → StoreM σ (List Outcome)
  | [] => return []
  | c :: calls => do
    let out ← S.perform c
    return out :: (← trace calls)

end

/-- The cached id of a block that is put is absent or correct. -/
def Call.Valid (P : Primitives) : Call → Prop
  | .put block => block.Valid P
  | _ => True

/-- The same result. Two blocks may differ in the cached id only, and carry no key. -/
inductive Outcome.Same (P : Primitives) : Outcome → Outcome → Prop
  | id (id : BlockId) : Same P (.id id) (.id id)
  | notFound : Same P (.error .notFound) (.error .notFound)
  | block {b b' : Block} (hbody : b.toBlockBody = b'.toBlockBody) (hid : b.id P = b'.id P)
      (hkey : b.key = none) (hkey' : b'.key = none) : Same P (.block b) (.block b')

end RepoStore

open RepoStore LmdbRepoStore ClockedStore

variable {P : Primitives} {appendDup : Finset BlockId → BlockId → Bool}

/-- What the LMDB store holds for the entry of the hash map under `id`. -/
inductive Linked.At (P : Primitives) (s : LmdbRepoStore) (id : BlockId) : Option Block → Prop
  | absent (hmain : s.mainStore id = none) : At P s id none
  | present {b : Block} (hmain : s.mainStore id = some (b.toVec P)) (hid : b.id P = id)
      (hvalid : b.Valid P) (hkey : b.key = none)
      (hexpiry : ∀ e, b.expiry = some e → (e, id) ∈ s.expiryStore) : At P s id (some b)

/-- The LMDB store holds the blocks of the hash map and no meta. -/
structure Linked (P : Primitives) (m : HashMapRepoStore) (s : LmdbRepoStore) : Prop where
  blocks : ∀ id, Linked.At P s id (m.blocks id)
  noMeta : ∀ id, s.metaStore id = none

namespace Linked

variable {m : HashMapRepoStore} {s : LmdbRepoStore}

theorem empty : Linked P .new .empty :=
  ⟨fun _ => .absent rfl, fun _ => rfl⟩

/-- A serialized block is read without the cached id and the key. -/
theorem view_present (hP : P.SerdeLaws) {id : BlockId} {b : Block}
    (hmain : s.mainStore id = some (b.toVec P)) :
    view P s.mainStore id = .ok { b with id? := none, key := none } := by
  simp only [view, hmain, Block.fromSlice_toVec hP]

/-- The block read back is the block of the hash map. -/
theorem same_block {b : Block} (hvalid : b.Valid P) (hkey : b.key = none) :
    Outcome.Same P (.block b) (.block { b with id? := none, key := none }) :=
  .block rfl (hvalid.id_congr rfl rfl) hkey rfl

theorem intact (hP : P.SerdeLaws) (h : Linked P m s) : Intact P s.mainStore := by
  intro id ser b hser hb
  have hat := h.blocks id
  generalize m.blocks id = entry at hat
  cases hat with
  | absent hmain =>
    rw [hmain] at hser
    cases hser
  | present hmain hid hvalid hkey hexpiry =>
    rw [hmain, Option.some.injEq] at hser
    rw [← hser, Block.fromSlice_toVec hP, Option.some.injEq] at hb
    subst hb
    exact hvalid.symm.trans hid

/-- The entries of the ids other than `id` are kept. -/
theorem At.frame {s' : LmdbRepoStore} {id' : BlockId} {entry : Option Block} (h : At P s id' entry)
    (hmain : s'.mainStore id' = s.mainStore id')
    (hexpiry : ∀ e, (e, id') ∈ s.expiryStore → (e, id') ∈ s'.expiryStore) : At P s' id' entry := by
  cases h with
  | absent hm => exact .absent (hmain.trans hm)
  | present hm hid hvalid hkey hexp =>
    exact .present (hmain.trans hm) hid hvalid hkey fun e he => hexpiry e (hexp e he)

/-! ## One call on both stores -/

/-- Both stores return the same from the call, and stay linked. -/
def Agree (P : Primitives) (appendDup : Finset BlockId → BlockId → Bool)
    (sizeOfVal : Nat) (c : RepoStore.Call)
    (m : HashMapRepoStore) (s : LmdbRepoStore) (clock : Nat → Timestamp) : Prop :=
  ∃ out out' m' s' clock', (HashMapRepoStore.repoStore P sizeOfVal).perform c m = .ok out m' ∧
    (ClockedStore.repoStore P appendDup).perform c ⟨s, clock⟩ = .ok out' ⟨s', clock'⟩ ∧
    Outcome.Same P out out' ∧ Linked P m' s'

theorem put (h : Linked P m s) {b : Block} (hb : b.Valid P) (sizeOfVal : Nat)
    (clock : Nat → Timestamp) : Agree P appendDup sizeOfVal (.put b) m s clock := by
  refine ⟨_, _, ⟨Function.update m.blocks (b.id P) (some (b.setKey none))⟩,
    putTxn P b s, clock, rfl,
    rfl, .id (b.id P), fun id => ?_, fun id => ?_⟩
  · dsimp only
    by_cases hid : id = b.id P
    · subst hid
      rw [Function.update_self]
      refine .present ?_ rfl (Block.setKey_valid hb none) rfl fun e he => ?_
      · rw [putTxn_mainStore, Function.update_self]
        rfl
      · exact (mem_putTxn_expiryStore b).mpr (.inl ⟨he, rfl⟩)
    · rw [Function.update_of_ne hid]
      refine (h.blocks id).frame ?_ fun e he => (mem_putTxn_expiryStore b).mpr (.inr he)
      rw [putTxn_mainStore, Function.update_of_ne hid]
  · rw [putTxn_metaStore]
    exact h.noMeta id

/-- What both stores hold under an id is the same. -/
theorem same_view (hP : P.SerdeLaws) (h : Linked P m s) (id : BlockId) :
    Outcome.Same P (.ofBlock (m.view id)) (.ofBlock (view P s.mainStore id)) := by
  have hat := h.blocks id
  unfold HashMapRepoStore.view
  generalize m.blocks id = entry at hat
  cases hat with
  | absent hmain =>
    simp only [view, hmain]
    exact .notFound
  | present hmain hid hvalid hkey hexpiry =>
    rw [view_present hP hmain]
    exact .block rfl (hvalid.id_congr rfl rfl) hkey rfl

theorem get (hP : P.SerdeLaws) (h : Linked P m s) (id : BlockId) (sizeOfVal : Nat)
    (clock : Nat → Timestamp) : Agree P appendDup sizeOfVal (.get id) m s clock := by
  obtain ⟨clock', hrun⟩ : ∃ clock', ClockedStore.get P appendDup id ⟨s, clock⟩ =
      .ok (view P s.mainStore id) ⟨s, clock'⟩ :=
    get_idle (fun id m hm => by rw [h.noMeta id] at hm; cases hm) (h.intact hP) id clock
  exact ⟨_, _, m, s, clock', StoreM.bind_ok.mpr ⟨_, _, HashMapRepoStore.get_run id m, rfl⟩,
    StoreM.bind_ok.mpr ⟨_, _, hrun, rfl⟩, h.same_view hP id, h⟩

/-- The block under `id` is removed from both stores. -/
theorem removed {s' : LmdbRepoStore} {id : BlockId} {b : Block} (h : Linked P m s)
    (hrun : delTxn id b s = .ok s') : Linked P ⟨Function.update m.blocks id none⟩ s' := by
  constructor
  · intro id'
    dsimp only
    by_cases hid : id' = id
    · subst hid
      rw [Function.update_self]
      exact .absent (by rw [delTxn_mainStore hrun, Function.update_self])
    · rw [Function.update_of_ne hid]
      refine (h.blocks id').frame ?_ fun e he =>
        (mem_delTxn_expiryStore hrun).mpr ⟨by simp [hid], he⟩
      rw [delTxn_mainStore hrun, Function.update_of_ne hid]
  · intro id'
    rw [delTxn_metaStore hrun]
    by_cases hid : id' = id
    · rw [hid, Function.update_self]
    · rw [Function.update_of_ne hid]
      exact h.noMeta id'

/-- What the LMDB store returns from `del` is what it has under the id. -/
theorem del_returns (hP : P.SerdeLaws) (h : Linked P m s) (id : BlockId) :
    ∃ size s', LmdbRepoStore.del P id s =
        .ok ((view P s.mainStore id).map fun block => (block, size)) s' ∧
      Linked P ⟨Function.update m.blocks id none⟩ s' := by
  have hat := h.blocks id
  generalize hentry : m.blocks id = entry at hat
  cases hat with
  | absent hmain =>
    refine ⟨0, s, ?_, ?_⟩
    · simp only [LmdbRepoStore.del, write, view, hmain]
      rfl
    · rw [← hentry, Function.update_eq_self]
      exact h
  | @present b hmain hid hvalid hkey hexpiry =>
    have hlru : ∀ m, s.metaStore id = some m → m.lastUsed ≠ 0 →
        (m.lastUsed, id) ∈ s.recentlyUsedStore := by
      intro m hm
      rw [h.noMeta id] at hm
      cases hm
    obtain ⟨s', htxn⟩ : ∃ s', delTxn id { b with id? := none, key := none } s = .ok s' :=
      delTxn_returns hlru hexpiry
    refine ⟨(b.toVec P).length, s', ?_, h.removed htxn⟩
    rw [view_present hP hmain]
    simp only [LmdbRepoStore.del, write, hmain, Block.fromSlice_toVec hP, htxn]
    rfl

theorem del (hP : P.SerdeLaws) (h : Linked P m s) (id : BlockId) (sizeOfVal : Nat)
    (clock : Nat → Timestamp) : Agree P appendDup sizeOfVal (.del id) m s clock := by
  have hmap := HashMapRepoStore.del_run sizeOfVal id m
  obtain ⟨size, s', hrun, hlinked⟩ := h.del_returns hP id
  have hclocked : ClockedStore.del P id ⟨s, clock⟩ =
      .ok ((view P s.mainStore id).map fun block => (block, size)) ⟨s', clock⟩ := by
    simp only [ClockedStore.del, lift, hrun]
  refine ⟨_, _, _, s', clock, StoreM.bind_ok.mpr ⟨_, _, hmap, rfl⟩,
    StoreM.bind_ok.mpr ⟨_, _, hclocked, rfl⟩, ?_, hlinked⟩
  have hfst : ∀ (n : Nat) (r : Except StorageError Block),
      (r.map fun block => (block, n)).map Prod.fst = r := by
    intro n r
    cases r <;> rfl
  rw [hfst, hfst]
  exact h.same_view hP id

theorem perform (hP : P.SerdeLaws) (h : Linked P m s) {c : RepoStore.Call}
    (hc : c.Valid P) (sizeOfVal : Nat)
    (clock : Nat → Timestamp) : Agree P appendDup sizeOfVal c m s clock := by
  cases c with
  | put b => exact h.put hc sizeOfVal clock
  | get id => exact h.get hP id sizeOfVal clock
  | del id => exact h.del hP id sizeOfVal clock

/-! ## Sequences of calls -/

theorem trace (hP : P.SerdeLaws) {calls : List RepoStore.Call} (hcalls : ∀ c ∈ calls, c.Valid P)
    (h : Linked P m s) (sizeOfVal : Nat) (clock : Nat → Timestamp) :
    ∃ outs outs' m' c', (HashMapRepoStore.repoStore P sizeOfVal).trace calls m = .ok outs m' ∧
      (ClockedStore.repoStore P appendDup).trace calls ⟨s, clock⟩ = .ok outs' c' ∧
      List.Forall₂ (Outcome.Same P) outs outs' := by
  induction calls generalizing m s clock with
  | nil => exact ⟨[], [], m, ⟨s, clock⟩, rfl, rfl, .nil⟩
  | cons c calls ih =>
    rw [List.forall_mem_cons] at hcalls
    obtain ⟨out, out', m₁, s₁, clock₁, hmap, hlmdb, hsame, h₁⟩ :
      Agree P appendDup sizeOfVal c m s clock :=
      h.perform hP hcalls.1 sizeOfVal clock
    obtain ⟨outs, outs', m', c', hmaps, hlmdbs, hsames⟩ := ih hcalls.2 h₁ clock₁
    exact ⟨out :: outs, out' :: outs', m', c',
      StoreM.bind_ok.mpr ⟨_, _, hmap, StoreM.bind_ok.mpr ⟨_, _, hmaps, rfl⟩⟩,
      StoreM.bind_ok.mpr ⟨_, _, hlmdb, StoreM.bind_ok.mpr ⟨_, _, hlmdbs, rfl⟩⟩, .cons hsame hsames⟩

end Linked

/-- A sequence of calls, made on both stores from the empty store, returns on both, with the same
results. -/
theorem same_results (hP : P.SerdeLaws) {calls : List RepoStore.Call}
    (hcalls : ∀ c ∈ calls, c.Valid P)
    (sizeOfVal : Nat) (clock : Nat → Timestamp) :
    ∃ outs outs' m c,
      (HashMapRepoStore.repoStore P sizeOfVal).trace calls HashMapRepoStore.new = .ok outs m ∧
      (ClockedStore.repoStore P appendDup).trace calls ⟨LmdbRepoStore.empty, clock⟩ = .ok outs' c ∧
      List.Forall₂ (Outcome.Same P) outs outs' :=
  Linked.empty.trace hP hcalls sizeOfVal clock

theorem same_results_put_del :
    let P := reference fun _ _ => false
    let b := Block.new P [] (.objectIdList []) (some 40) [1, 2, 3] none
    ∃ outs outs' m c,
      (HashMapRepoStore.repoStore P 64).trace
        [.get (b.id P), .put b, .get (b.id P), .del (b.id P), .get (b.id P)] .new = .ok outs m ∧
      (ClockedStore.repoStore P appendAfter).trace
        [.get (b.id P), .put b, .get (b.id P), .del (b.id P), .get (b.id P)]
        ⟨LmdbRepoStore.empty, fun _ => 1⟩ = .ok outs' c ∧
      List.Forall₂ (Outcome.Same P) outs outs' := by
  intro P b
  refine same_results Reference.serdeLaws (fun c hc => ?_) 64 fun _ => 1
  simp only [List.mem_cons, List.not_mem_nil, or_false] at hc
  rcases hc with rfl | rfl | rfl | rfl | rfl <;> trivial

end Lofire
