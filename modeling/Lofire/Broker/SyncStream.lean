import Lofire.Broker.Transfer
import Lofire.Branch.Sync
import Lofire.Object.MissingBlocks
import Lofire.Object.Needs

/-!
# The blocks that a synchronisation streams

One set of sent ids spans all the objects of `sync_branch`. Every block that is read has been
checked against its id, so a block that is left out is the same block as the one that was sent, and
the stream is the union of the trees of the selected objects without duplicates
(`syncBranch_stream`). A client loads from it every object whose root lists its dependencies; the
tree of a dependency list that the root refers to is not streamed (`not_syncBranch_stream`).
-/

namespace Lofire

open Lib

variable {P : Primitives}

/-! ## Blocks that are checked -/

theorem LmdbRepoStore.get_checked {appendDup : Finset BlockId → BlockId → Bool} {now : Timestamp}
    {id : BlockId} {b : Block} {s s' : LmdbRepoStore}
    (h : LmdbRepoStore.get P appendDup now id s = .ok (.ok b) s') : b.id P = id := by
  unfold LmdbRepoStore.get at h
  split at h
  · cases h
  · split at h
    · cases h
    · split at h
      · cases h
      · rename_i res hcheck
        cases h
        unfold LmdbRepoStore.checkBlock at hcheck
        split at hcheck
        · cases hcheck
        · split at hcheck
          · cases hcheck
          · rename_i hid
            cases hcheck
            exact not_not.mp hid

namespace ClockedStore

variable {appendDup : Finset BlockId → BlockId → Bool} {main : BlockId → Option Bytes}
  {id : BlockId} {b : Block}

/-- What a call of `get` that returns has found: a block with the id that was asked for. -/
def found (P : Primitives) (main : BlockId → Option Bytes) : Object.View := fun id =>
  match view P main id with
  | .error e => .error e
  | .ok b => if b.id P = id then .ok b else .error .invalidValue

theorem found_ok : found P main id = .ok b ↔ view P main id = .ok b ∧ b.id P = id := by
  unfold found
  cases view P main id with
  | error e => simp
  | ok b' =>
    dsimp only
    split
    · rename_i hid
      simp only [Except.ok.injEq, iff_self_and]
      rintro rfl
      exact hid
    · rename_i hid
      simp only [reduceCtorEq, Except.ok.injEq, false_iff, not_and]
      rintro rfl
      exact hid

/-- A stored block has no key. -/
theorem view_key (h : view P main id = .ok b) : b.key = none := by
  unfold view at h
  split at h
  · cases h
  · split at h
    · cases h
    · rename_i hb
      cases h
      obtain ⟨body, -, rfl⟩ := Option.map_eq_some_iff.mp hb
      rfl

theorem get_reading_found (main : BlockId → Option Bytes) (id : BlockId) :
    (reading main).rel (get P appendDup id) (found P main id) := by
  intro c hc r c' h
  obtain ⟨rfl, hmain, hsound⟩ := get_reading main id c hc r c' h
  refine ⟨?_, hmain, hsound⟩
  unfold found
  cases hview : view P main id with
  | error e => rfl
  | ok b =>
    rw [hview] at h
    unfold get at h
    split at h
    · rename_i hget
      cases h
      exact (if_pos (LmdbRepoStore.get_checked hget)).symm
    · cases h

/-- A load that returns has found what it needs. -/
theorem load_reading_found (main : BlockId → Option Bytes) (fuel : Nat) (id : ObjectId)
    (key : Option SymKey) :
    (reading main).rel (Object.load P (get P appendDup) fuel id key)
      (Object.loadView P (found P main) id key fuel) :=
  Object.load_yields _ fuel (fun x _ => get_reading_found main x) key

theorem loadView_of_found {key : Option SymKey} {fuel : Nat} {o : Object}
    (h : Object.loadView P (found P main) id key fuel = some (.ok o)) :
    Object.loadView P (view P main) id key fuel = some (.ok o) :=
  Object.loadView_of_sub (fun _ _ hx => (found_ok.mp hx).1) h

end ClockedStore

namespace Object

variable {v : View}

/-- An object whose root lists its dependencies needs nothing but its tree. -/
theorem Needs.inTree {id x : BlockId} (hx : Needs v id x) {root : Block} {deps : List ObjectId}
    (hroot : v id = .ok root) (hdeps : root.deps = .objectIdList deps) : InTree v id x := by
  obtain ⟨r, hpath, hx⟩ := hx
  obtain rfl | ⟨r', ⟨b, ref, hb, href, -⟩, -⟩ := hpath.cases_head
  · exact hx
  · rw [hroot, Except.ok.injEq] at hb
    subst hb
    rw [hdeps] at href
    cases href

/-- The blocks of an object that loads are those of its tree. -/
theorem mem_blocks_iff {id : ObjectId} {fuel : Nat} {o : Object}
    (h : loadView P v id none fuel = some (.ok o)) {b : Block} :
    b ∈ o.blocks ↔ ∃ x, InTree v id x ∧ v x = .ok b := by
  cases fuel with
  | zero => cases h
  | succ fuel =>
    rw [loadView_succ] at h
    obtain ⟨⟨bs, ms⟩, htree, h⟩ := Option.bind_eq_some_iff.mp h
    split at h
    · cases h
    · have hblocks : o.blocks = bs := loadDeps_blocks h
      rw [hblocks]
      exact (tree_mem ((loadTree_mono v [id] [] []).returns htree)).2 b

end Object

/-! ## The stream -/

namespace BrokerServer

/-- The set of sent ids is the set of the ids of the stream, in which no id occurs twice. -/
structure Sent.Distinct (P : Primitives) (sent : Sent) : Prop where
  mem_iff : ∀ id, id ∈ sent.deduplicated ↔ id ∈ sent.blocks.map (Block.id P)
  nodup : (sent.blocks.map (Block.id P)).Nodup

theorem Sent.Distinct.empty : Sent.Distinct P ⟨[], ∅⟩ := ⟨by simp, List.nodup_nil⟩

/-- Sending blocks keeps the stream free of duplicates. -/
theorem Sent.Distinct.sendBlocks {sent : Sent} (h : sent.Distinct P) (blocks : List Block) :
    (BrokerServer.sendBlocks P blocks sent).Distinct P := by
  induction blocks generalizing sent with
  | nil => exact h
  | cons block blocks ih =>
    unfold BrokerServer.sendBlocks
    split
    · exact ih h
    · rename_i hnew
      refine ih ⟨fun id => ?_, ?_⟩
      · simp only [Finset.mem_insert, h.mem_iff, List.map_append, List.mem_append, List.map_cons,
          List.map_nil, List.mem_singleton]
        exact or_comm
      · rw [List.map_append, List.nodup_append]
        refine ⟨h.nodup, List.nodup_singleton _, fun id hid id' hid' => ?_⟩
        rintro rfl
        rw [List.map_cons, List.map_nil, List.mem_singleton] at hid'
        exact hnew (hid' ▸ (h.mem_iff id).mpr hid)

theorem sendBlocks_append (blocks blocks' : List Block) (sent : Sent) :
    sendBlocks P (blocks ++ blocks') sent = sendBlocks P blocks' (sendBlocks P blocks sent) := by
  induction blocks generalizing sent with
  | nil => rfl
  | cons block blocks ih =>
    simp only [List.cons_append, sendBlocks]
    split
    · exact ih _
    · exact ih _

/-- Where the id determines the block, exactly the blocks of the list are sent. -/
theorem mem_sendBlocks {blocks : List Block} {v : Object.View}
    (h : ∀ b ∈ blocks, v (b.id P) = .ok b) {b : Block} :
    b ∈ (sendBlocks P blocks ⟨[], ∅⟩).blocks ↔ b ∈ blocks := by
  obtain ⟨hfrom, hall⟩ := sendBlocks_spec (P := P) blocks ⟨[], ∅⟩
    (fun id hid => absurd hid (Finset.notMem_empty id))
  have hfrom : ∀ b ∈ (sendBlocks P blocks ⟨[], ∅⟩).blocks, b ∈ blocks := by
    intro b hb
    obtain hb | hb := hfrom b hb
    · cases hb
    · exact hb
  refine ⟨hfrom b, fun hb => ?_⟩
  obtain ⟨b', hb', hid⟩ := hall b (.inr hb)
  have hsame := h b' (hfrom b' hb')
  rw [hid, h b hb, Except.ok.injEq] at hsame
  exact hsame ▸ hb'

/-- The loop over the selected objects has loaded each of them and sent all their blocks. -/
theorem sendObjects_ok {E : Env} {main : BlockId → Option Bytes} {ids : List ObjectId} {sent : Sent}
    {c c' : ClockedStore} {stream : List Block} (hc : c.store.mainStore = main)
    (h : sendObjects P E ids sent c = .ok (some (.ok stream)) c') :
    ∃ objects : List Object,
      List.Forall₂ (fun id o =>
        Object.loadView P (ClockedStore.found P main) id none E.fuel = some (.ok o)) ids objects ∧
      stream = (sendBlocks P (objects.flatMap Object.blocks) sent).blocks := by
  induction ids generalizing sent c with
  | nil =>
    cases h
    exact ⟨[], .nil, rfl⟩
  | cons id ids ih =>
    obtain ⟨res, c₁, hload, h⟩ := StoreM.bind_ok.mp h
    obtain ⟨hres, hc₁, -⟩ := ClockedStore.load_reading_found main E.fuel id none c hc res c₁ hload
    obtain _ | e | o := res
    · cases h
    · cases h
    · obtain ⟨objects, hobjects, hstream⟩ := ih hc₁ h
      refine ⟨o :: objects, .cons hres.symm hobjects, ?_⟩
      rw [hstream, List.flatMap_cons, sendBlocks_append]

/-- What is streamed for the selected objects: their blocks, all of which have been checked. -/
theorem stream_of_sendObjects {E : Env} {main : BlockId → Option Bytes} {ids : List ObjectId}
    {c c' : ClockedStore} {stream : List Block} (hc : c.store.mainStore = main)
    (h : sendObjects P E ids ⟨[], ∅⟩ c = .ok (some (.ok stream)) c') :
    ∃ objects : List Object,
      List.Forall₂ (fun id o =>
        Object.loadView P (ClockedStore.found P main) id none E.fuel = some (.ok o)) ids objects ∧
      (stream.map (Block.id P)).Nodup ∧ (∀ b, b ∈ stream ↔ ∃ o ∈ objects, b ∈ o.blocks) ∧
      ∀ b ∈ stream, ClockedStore.found P main (b.id P) = .ok b := by
  obtain ⟨objects, hobjects, rfl⟩ := sendObjects_ok hc h
  have hchecked : ∀ b ∈ objects.flatMap Object.blocks,
      ClockedStore.found P main (b.id P) = .ok b := by
    intro b hb
    obtain ⟨o, ho, hb⟩ := List.mem_flatMap.mp hb
    obtain ⟨id, -, hload⟩ := forall₂_mem_right hobjects ho
    obtain ⟨x, -, hx⟩ := (Object.mem_blocks_iff hload).mp hb
    rwa [(ClockedStore.found_ok.mp hx).2]
  refine ⟨objects, hobjects, (Sent.Distinct.empty.sendBlocks _).nodup, fun b => ?_, fun b hb => ?_⟩
  · rw [mem_sendBlocks hchecked, List.mem_flatMap]
  · exact hchecked b ((mem_sendBlocks hchecked).mp hb)

end BrokerServer

/-! ## The client -/

/-- A store in which blocks with different ids are put returns each under its id. -/
theorem putAll_view {blocks : List Block} (hkey : ∀ b ∈ blocks, b.key = none)
    (hnodup : (blocks.map (Block.id P)).Nodup) (s : HashMapRepoStore) :
    ∃ s', OverlayConnectionClient.putAll P blocks s = .ok () s' ∧
      (∀ b ∈ blocks, s'.view (b.id P) = .ok b) ∧
      ∀ id, id ∉ blocks.map (Block.id P) → s'.view id = s.view id := by
  induction blocks generalizing s with
  | nil => exact ⟨s, rfl, by simp, fun _ _ => rfl⟩
  | cons b blocks ih =>
    obtain ⟨hnew, hnodup⟩ := List.nodup_cons.mp hnodup
    obtain ⟨s', hrun, hall, hrest⟩ := ih (fun b hb => hkey b (List.mem_cons_of_mem _ hb)) hnodup
      ⟨Function.update s.blocks (b.id P) (some (b.setKey none))⟩
    refine ⟨s', StoreM.bind_ok.mpr ⟨.ok (b.id P), _, rfl, hrun⟩, fun b' hb' => ?_, fun id hid => ?_⟩
    · obtain rfl | hb' := List.mem_cons.mp hb'
      · have hplain : b'.setKey none = b' := by
          rw [← hkey b' List.mem_cons_self]
          rfl
        rw [hrest _ hnew, HashMapRepoStore.view]
        simp [hplain]
      · exact hall b' hb'
    · rw [List.map_cons, List.mem_cons, not_or] at hid
      rw [hrest id hid.2]
      simp [HashMapRepoStore.view, hid.1]

/-- An empty store in which blocks with different ids are put holds these blocks and no others. -/
theorem putAll_new {blocks : List Block} (hkey : ∀ b ∈ blocks, b.key = none)
    (hnodup : (blocks.map (Block.id P)).Nodup) :
    ∃ client, OverlayConnectionClient.putAll P blocks .new = .ok () client ∧
      ∀ x b, client.view x = .ok b ↔ b ∈ blocks ∧ b.id P = x := by
  obtain ⟨client, hput, hall, hrest⟩ := putAll_view hkey hnodup .new
  refine ⟨client, hput, fun x b => ⟨fun hb => ?_, ?_⟩⟩
  · by_cases hx : x ∈ blocks.map (Block.id P)
    · obtain ⟨b', hb', rfl⟩ := List.mem_map.mp hx
      rw [hall b' hb', Except.ok.injEq] at hb
      exact ⟨hb ▸ hb', congrArg _ hb.symm⟩
    · rw [hrest x hx] at hb
      cases hb
  · rintro ⟨hb, rfl⟩
    exact hall b hb

/-- What a client with the store `client` loads for `id`, with at least this fuel. -/
def ClientLoads (P : Primitives) (client : HashMapRepoStore) (fuel : Nat) (id : ObjectId)
    (o : Object) : Prop :=
  ∀ n, fuel ≤ n → ∃ s', Object.load P HashMapRepoStore.get n id none client = .ok (some (.ok o)) s'

/-- A load of the client computes what it computes from the view of its store. -/
theorem clientLoad_run (P : Primitives) (client : HashMapRepoStore) (fuel : Nat) (id : ObjectId) :
    ∃ s', Object.load P HashMapRepoStore.get fuel id none client =
      .ok (Object.loadView P client.view id none fuel) s' := by
  obtain ⟨s', hrun, -⟩ := (Object.load_reads (HashMapRepoStore.lawful P ∅ 0) client.view fuel id
    none).run client trivial rfl
  exact ⟨s', hrun⟩

theorem clientLoads_iff_loadView {client : HashMapRepoStore} {fuel : Nat} {id : ObjectId}
    {o : Object} : ClientLoads P client fuel id o ↔
      Object.loadView P client.view id none fuel = some (.ok o) := by
  constructor
  · intro h
    obtain ⟨s', hload⟩ := h fuel (Nat.le_refl fuel)
    obtain ⟨s'', hrun⟩ := clientLoad_run P client fuel id
    rw [hload, EStateM.Result.ok.injEq] at hrun
    exact hrun.1.symm
  · intro h n hn
    obtain ⟨s', hrun⟩ := clientLoad_run P client n id
    exact ⟨s', (Object.loadView_mono client.view id none).le hn h ▸ hrun⟩

/-- From a part of a view, an object loads as from the view if every block it needs is there, and
only then. -/
theorem clientLoads_iff {v : Object.View} {id : ObjectId} {fuel : Nat} {o : Object}
    (h : Object.loadView P v id none fuel = some (.ok o)) {client : HashMapRepoStore}
    (hsub : ∀ x b, client.view x = .ok b → v x = .ok b) :
    ClientLoads P client fuel id o ↔
      ∀ x, Object.Needs v id x → ∃ b, client.view x = .ok b := by
  rw [clientLoads_iff_loadView]
  constructor
  · intro hload x hx
    exact Object.loadView_present hload
      (hx.of_present hsub fun y hy => Object.loadView_present hload hy)
  · intro hpresent
    rw [Object.loadView_congr fun x hx => ?_, h]
    obtain ⟨b, hb⟩ := hpresent x hx
    rw [hb, hsub x b hb]

/-! ## A synchronisation -/

/-- If `sync_branch` returns a stream, it consists of the blocks of the trees of the objects that
`sync_req` has selected, each id once. A client that puts it in an empty store loads a selected
object as it is in the store of the broker if and only if the stream has every block that the object
needs, as it has if the root lists the dependencies. -/
theorem syncBranch_stream {E : Env} {sv sv' : BrokerServer} {overlay : OverlayId}
    {heads knownHeads : List ObjectId} {knownCommits : BloomFilter} {stream : List Block}
    (h : sv.serve (BrokerServer.syncBranch P E overlay heads knownHeads knownCommits) =
      some (.ok stream, sv')) :
    ∃ store selected c, sv'.Resolves overlay store ∧
      (∀ store₀, sv.repoStoreOf overlay = some store₀ → store₀ = store) ∧
      Branch.syncReq P E.order (ClockedStore.get P E.appendDup) E.fuel heads knownHeads knownCommits
        ⟨sv.disk store, E.clock⟩ = .ok (some (.ok selected)) c ∧
      (stream.map (Block.id P)).Nodup ∧
      (∀ b, b ∈ stream ↔ ∃ id ∈ selected, ∃ x,
        Object.InTree (ClockedStore.view P (sv.disk store).mainStore) id x ∧
          ClockedStore.view P (sv.disk store).mainStore x = .ok b) ∧
      ∃ client, OverlayConnectionClient.putAll P stream .new = .ok () client ∧
        ∀ id ∈ selected, ∃ o root,
          Object.loadView P (ClockedStore.view P (sv.disk store).mainStore) id none E.fuel =
            some (.ok o) ∧
          ClockedStore.view P (sv.disk store).mainStore id = .ok root ∧
          (ClientLoads P client E.fuel id o ↔
            ∀ x, Object.Needs (ClockedStore.view P (sv.disk store).mainStore) id x →
              ∃ b ∈ stream, b.id P = x) ∧
          ∀ deps, root.deps = .objectIdList deps → ClientLoads P client E.fuel id o := by
  obtain ⟨store, hresolves, hknown, c', hrun, -⟩ := BrokerServer.serve_getRepostoreFromOverlayId h
  obtain ⟨res, c, hsync, hsend⟩ := StoreM.bind_ok.mp hrun
  obtain _ | e | selected := res
  · cases hsend
  · cases hsend
  obtain ⟨-, hmain, -⟩ := Branch.syncReq_yields (ClockedStore.reading (sv.disk store).mainStore)
    (ClockedStore.get_reading _) E.order E.fuel heads knownHeads knownCommits _ rfl _ c hsync
  obtain ⟨objects, hobjects, hnodup, hmem, hfound⟩ :=
    BrokerServer.stream_of_sendObjects hmain hsend
  obtain ⟨client, hput, hclient⟩ := putAll_new
    (fun b hb => ClockedStore.view_key (ClockedStore.found_ok.mp (hfound b hb)).1) hnodup
  have hsub : ∀ x b, client.view x = .ok b →
      ClockedStore.view P (sv.disk store).mainStore x = .ok b := by
    intro x b hb
    obtain ⟨hmem, rfl⟩ := (hclient x b).mp hb
    exact (ClockedStore.found_ok.mp (hfound b hmem)).1
  refine ⟨store, selected, c, hresolves, hknown, hsync, hnodup, fun b => ?_, client, hput,
    fun id hid => ?_⟩
  · rw [hmem]
    constructor
    · rintro ⟨o, ho, hb⟩
      obtain ⟨id, hid, hload⟩ := forall₂_mem_right hobjects ho
      exact ⟨id, hid, (Object.mem_blocks_iff (ClockedStore.loadView_of_found hload)).mp hb⟩
    · rintro ⟨id, hid, hx⟩
      obtain ⟨o, ho, hload⟩ := forall₂_mem_left hobjects hid
      exact ⟨o, ho, (Object.mem_blocks_iff (ClockedStore.loadView_of_found hload)).mpr hx⟩
  · obtain ⟨o, ho, hload⟩ := forall₂_mem_left hobjects hid
    obtain ⟨root, hroot⟩ := Object.loadView_present hload (Object.Needs.root _ id)
    have hiff := clientLoads_iff (ClockedStore.loadView_of_found hload) hsub
    simp only [hclient] at hiff
    refine ⟨o, root, ClockedStore.loadView_of_found hload, (ClockedStore.found_ok.mp hroot).1,
      hiff, fun deps hdeps => hiff.mpr fun x hx => ?_⟩
    -- a block of the tree has been found and sent
    have hneeds := hx.of_present (fun y b hb => (ClockedStore.found_ok.mp hb).1)
      fun y hy => Object.loadView_present hload hy
    obtain ⟨b, hb⟩ := Object.loadView_present hload hneeds
    exact ⟨b, (hmem b).mpr ⟨o, ho, (Object.mem_blocks_iff hload).mpr
      ⟨x, hneeds.inTree hroot hdeps, hb⟩⟩, (ClockedStore.found_ok.mp hb).2⟩

/-! ### Two commits -/

namespace SyncStream

open SmallFile

def dep : ObjectId := ⟨.replicate 32 7⟩

def leaf : Block := ⟨⟨[], .objectIdList [], none, [104, 105]⟩, none, none⟩

/-- A commit that has the leaf twice. -/
def commit : Block :=
  ⟨⟨[leaf.id primitives, leaf.id primitives], .objectIdList [dep], none, [106]⟩, none, none⟩

/-- The only block of an object that lists the dependency. -/
def depList : Block :=
  Object.makeDataBlock primitives (.replicate 32 4) (.objectIdList []) none
    (primitives.objectContent.toVec (.depList [dep]))

/-- A commit with one dependency whose root refers to the list. -/
def refCommit : Block :=
  ⟨⟨[], .depListRef ⟨depList.id primitives, depList.key.getD ⟨.replicate 32 0⟩⟩, none, [106]⟩,
    none, none⟩

def repoStore (b b' : Block) : LmdbRepoStore :=
  LmdbRepoStore.putTxn primitives b' (LmdbRepoStore.putTxn primitives b .empty)

/-- A core broker that has the two blocks. -/
def brokerOf (b b' : Block) : BrokerServer :=
  { broker with disk := fun _ => repoStore b b' }

/-- The request for a commit. -/
def request (b : Block) : ServerM (List Block) :=
  BrokerServer.syncBranch primitives (env 3) overlay [b.id primitives] [] ⟨1, []⟩

/-- The ids that are selected. -/
def selected (b b' : Block) : Option (Except ObjectParseError (List ObjectId)) :=
  Branch.syncReq (m := Id) primitives .ascending
    (ClockedStore.view primitives (repoStore b b').mainStore) 3 [b'.id primitives] [] ⟨1, []⟩

theorem syncReq_selected {b b' : Block} {clock : Nat → Timestamp}
    {res : Option (Except ObjectParseError (List ObjectId))} {c : ClockedStore}
    (h : Branch.syncReq primitives .ascending (ClockedStore.get primitives (env 3).appendDup) 3
      [b'.id primitives] [] ⟨1, []⟩ ⟨repoStore b b', clock⟩ = .ok res c) : res = selected b b' :=
  (Branch.syncReq_yields (ClockedStore.reading (repoStore b b').mainStore)
    (ClockedStore.get_reading _) .ascending 3 [b'.id primitives] [] ⟨1, []⟩ _ rfl _ c h).1

/-- The store of the client that has put the second commit. -/
def client : HashMapRepoStore :=
  ⟨Function.update (fun _ => none) (refCommit.id primitives) (some refCommit)⟩

end SyncStream

open SmallFile SyncStream in
/-- A commit in whose tree a leaf occurs twice: the leaf is streamed once. -/
theorem syncBranch_stream_twice : ∃ sv client o,
    (brokerOf leaf commit).serve (request commit) = some (.ok [leaf, commit], sv) ∧
    OverlayConnectionClient.putAll primitives [leaf, commit] .new = .ok () client ∧
    ClientLoads primitives client 3 (commit.id primitives) o ∧
    o = ⟨[leaf, leaf, commit], [dep]⟩ := by
  have hserve : ((brokerOf leaf commit).serve (request commit)).map Prod.fst =
      some (.ok [leaf, commit]) := by decide +kernel
  obtain ⟨⟨_, sv⟩, hserve, rfl⟩ := Option.map_eq_some_iff.mp hserve
  obtain ⟨store, ids, c, -, -, hsync, -, -, client, hput, hloads⟩ := syncBranch_stream hserve
  have hselected : selected leaf commit = some (.ok [commit.id primitives]) := by decide +kernel
  cases (syncReq_selected hsync).trans hselected
  obtain ⟨o, root, hload, hroot, -, hclient⟩ := hloads _ List.mem_cons_self
  have hview : ClockedStore.view primitives (repoStore leaf commit).mainStore
      (commit.id primitives) = .ok commit := by decide +kernel
  have hobject : Object.loadView primitives
      (ClockedStore.view primitives (repoStore leaf commit).mainStore) (commit.id primitives) none
      3 = some (.ok ⟨[leaf, leaf, commit], [dep]⟩) := by decide +kernel
  cases hroot.symm.trans hview
  cases hload.symm.trans hobject
  exact ⟨sv, client, _, hserve, hput, hclient [dep] rfl, rfl⟩

open SmallFile SyncStream in
/-- A commit with one dependency whose root refers to the object that lists it: the broker loads the
commit, but the list is not streamed, so that the client does not load it. -/
theorem not_syncBranch_stream : ∃ sv c o client,
    (brokerOf depList refCommit).serve (request refCommit) = some (.ok [refCommit], sv) ∧
    (brokerOf depList refCommit).repoStoreOf overlay = some (.overlay overlay) ∧
    Branch.syncReq primitives .ascending (ClockedStore.get primitives (env 3).appendDup) 3
      [refCommit.id primitives] [] ⟨1, []⟩
      ⟨(brokerOf depList refCommit).disk (.overlay overlay), (env 3).clock⟩ =
        .ok (some (.ok [refCommit.id primitives])) c ∧
    Object.loadView primitives (ClockedStore.view primitives
      ((brokerOf depList refCommit).disk (.overlay overlay)).mainStore) (refCommit.id primitives)
        none 3 = some (.ok o) ∧ o.deps.length ≤ 8 ∧
    OverlayConnectionClient.putAll primitives [refCommit] .new = .ok () client ∧
    ∀ fuel, 3 ≤ fuel → ∃ s', Object.load primitives HashMapRepoStore.get fuel
      (refCommit.id primitives) none client =
        .ok (some (.error (.missingBlocks [depList.id primitives]))) s' := by
  have hserve : ((brokerOf depList refCommit).serve (request refCommit)).map Prod.fst =
      some (.ok [refCommit]) := by decide +kernel
  obtain ⟨⟨_, sv⟩, hserve, rfl⟩ := Option.map_eq_some_iff.mp hserve
  obtain ⟨store, -, -, c', hrun, -⟩ := BrokerServer.serve_getRepostoreFromOverlayId hserve
  obtain ⟨res, c, hsync, -⟩ := StoreM.bind_ok.mp hrun
  have hselected : selected depList refCommit = some (.ok [refCommit.id primitives]) := by
    decide +kernel
  have hres : res = some (.ok [refCommit.id primitives]) :=
    (syncReq_selected hsync).trans hselected
  subst hres
  have hobject : Object.loadView primitives
      (ClockedStore.view primitives (repoStore depList refCommit).mainStore)
      (refCommit.id primitives) none 3 = some (.ok ⟨[refCommit], [dep]⟩) := by decide +kernel
  have hclient : Object.loadView primitives client.view (refCommit.id primitives) none 3 =
      some (.error (.missingBlocks [depList.id primitives])) := by decide +kernel
  refine ⟨sv, c, _, client, hserve, rfl, hsync, hobject, show 1 ≤ 8 by decide, rfl,
    fun fuel hfuel => ?_⟩
  obtain ⟨s', hload⟩ := clientLoad_run primitives client fuel (refCommit.id primitives)
  exact ⟨s', (Object.loadView_mono client.view _ none).le hfuel hclient ▸ hload⟩

end Lofire
