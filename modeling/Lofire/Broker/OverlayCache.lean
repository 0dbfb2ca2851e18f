import Lofire.Broker.Joins
import Lofire.Broker.Locks
import Lofire.Lib.Steps

/-!
# The cache of the overlays

A broker in local mode remembers the repo store of an overlay in `overlayid_to_repostore`. The entry
is inserted before the repo store is opened, and stays if this fails: the overlay then refers to a
repo store that is not open, and every later call on it fails with `BrokerError`. The cache refers
to open repo stores only in the runs in which no call finds the repo of an overlay for the first
time and then fails to open its repo store (`cacheOpen_iff`).
-/

namespace Lofire

open Lib LmdbBrokerStore

namespace BrokerServer

/-- Every repo store in the cache is open. -/
def CacheOpen (sv : BrokerServer) : Prop :=
  ∀ overlay id, sv.overlayidToRepostore overlay = some id → id ∈ sv.repoStores

/-- Insert an overlay into the cache. -/
def cache (sv : BrokerServer) (overlay : OverlayId) (id : RepoStoreId) : BrokerServer :=
  { sv with overlayidToRepostore := Function.update sv.overlayidToRepostore overlay (some id) }

/-- The records have the repo of the overlay. -/
def RepoOf (sv : BrokerServer) (overlay : OverlayId) (repo : PubKey) : Prop :=
  (Overlay.record overlay).Exists sv.store ∧
    runOn (Overlay.repo overlay) sv.store = (.ok repo, sv.store)

/-- The key of the repo store can be read, and its directory created. -/
def Openable (E : Env) (sv : BrokerServer) (id : RepoStoreId) : Prop :=
  (RepoStoreInfo.record id).Exists sv.store ∧
    (∃ key, runOn (RepoStoreInfo.key id) sv.store = (.ok key, sv.store)) ∧ E.createDirAll id = true

variable {E : Env} {sv sv' : BrokerServer} {overlay : OverlayId} {id : RepoStoreId}

theorem cacheOpen_empty (h : sv.overlayidToRepostore = fun _ => none) : sv.CacheOpen := by
  intro overlay id hcached
  rw [h] at hcached
  cases hcached

/-- A repo store that is open, or that is opened now, can be inserted. -/
theorem CacheOpen.cache (h : sv.CacheOpen) (hopen : id ∈ sv.repoStores) :
    (sv.cache overlay id).CacheOpen := by
  intro overlay' id' hcached
  simp only [BrokerServer.cache, Function.update_apply] at hcached
  split at hcached
  · cases hcached
    exact hopen
  · exact h overlay' id' hcached

theorem not_cacheOpen_cache (hclosed : id ∉ sv.repoStores) : ¬ (sv.cache overlay id).CacheOpen :=
  fun h => hclosed (h overlay id (Function.update_self ..))

theorem cache_ne (h : sv.overlayidToRepostore overlay = none) : sv.cache overlay id ≠ sv := by
  intro heq
  have hcached : (sv.cache overlay id).overlayidToRepostore overlay = some id :=
    Function.update_self ..
  rw [heq, h] at hcached
  cases hcached

/-! ## Opening a repo store -/

theorem RepoOf.unique {repo repo' : PubKey} (h : sv.RepoOf overlay repo)
    (h' : sv.RepoOf overlay repo') :
    repo = repo' := by
  have heq := h.2.symm.trans h'.2
  simp only [Prod.mk.injEq, Except.ok.injEq] at heq
  exact heq.1

theorem RepoOf.serve_readRepo {repo : PubKey} (h : sv.RepoOf overlay repo) :
    sv.serve (LockedM.readRepo overlay) = some (.ok repo, sv) := by
  have hopen : runOn (Overlay.openId overlay) sv.store = (.ok (), sv.store) := by
    rw [Overlay.openId, Record.runOn_openRecord, if_pos h.1]
  refine serve_records_run ?_
  rw [runServer_ofStore, runOn_bind_ok hopen, h.2]
  rfl

theorem serve_readRepo_of_not (h : ∀ repo, ¬ sv.RepoOf overlay repo) :
    ∃ e, sv.serve (LockedM.readRepo overlay) = some (.error e, sv) := by
  by_cases hexists : (Overlay.record overlay).Exists sv.store
  · have hopen : runOn (Overlay.openId overlay) sv.store = (.ok (), sv.store) := by
      rw [Overlay.openId, Record.runOn_openRecord, if_pos hexists]
    have hstate : (runOn (Overlay.repo overlay) sv.store).2 = sv.store :=
      Record.runOn_property_state _
    cases hrepo : (runOn (Overlay.repo overlay) sv.store).1 with
    | ok repo => exact absurd ⟨hexists, Prod.ext hrepo hstate⟩ (h repo)
    | error e =>
      refine ⟨.ofStorageError e, serve_records_run ?_⟩
      rw [runServer_ofStore, runOn_bind_ok hopen, hrepo, hstate]
      rfl
  · have hopen : runOn (Overlay.openId overlay) sv.store = (.error .notFound, sv.store) := by
      rw [Overlay.openId, Record.runOn_openRecord, if_neg hexists]
    refine ⟨.ofStorageError .notFound, serve_records_run ?_⟩
    rw [runServer_ofStore, runOn_bind_error hopen]
    rfl

/-- A repo store that can not be opened. -/
theorem serve_openRepostore_of_not (h : ¬ Openable E sv id) (readLocked : Bool) :
    ∃ e, sv.serve (openRepostore E readLocked id) = some (.error e, sv) := by
  have hread : sv.serve (LockedM.readKey id) = _ := LockedM.serve_readKey id
  have hbind : sv.serve (openRepostore E readLocked id) =
    sv.serve (LockedM.readKey id >>= fun key =>
      if !E.createDirAll id then throw .writeError
      else if !E.canOpen id key || readLocked then hang
      else modify fun sv => { sv with repoStores := insert id sv.repoStores }) := rfl
  rw [hbind, serve_bind_eq, hread]
  by_cases hexists : (RepoStoreInfo.record id).Exists sv.store
  · rw [if_pos hexists]
    cases hkey : (runOn (RepoStoreInfo.key id) sv.store).1 with
    | error e => exact ⟨_, rfl⟩
    | ok key =>
      have hdir : E.createDirAll id = false := by
        refine Bool.eq_false_iff.mpr fun hdir => h ⟨hexists, ⟨key, ?_⟩, hdir⟩
        exact Prod.ext hkey (Record.runOn_property_state _)
      refine ⟨.writeError, ?_⟩
      dsimp only [Except.mapError]
      rw [hdir]
      rfl
  · rw [if_neg hexists]
    exact ⟨_, rfl⟩

/-- A repo store that can be opened is open afterwards, if LMDB opens it and the call does not wait
for itself. -/
theorem Openable.serve_openRepostore (h : Openable E sv id) (readLocked : Bool) :
    ∃ key, sv.serve (openRepostore E readLocked id) = if !E.canOpen id key || readLocked then none
      else some (.ok (), { sv with repoStores := insert id sv.repoStores }) := by
  obtain ⟨hexists, ⟨key, hkey⟩, hdir⟩ := h
  have hread : sv.serve (LockedM.readKey id) = some (.ok key, sv) := by
    rw [LockedM.serve_readKey, if_pos hexists, hkey]
    rfl
  have hbind : sv.serve (openRepostore E readLocked id) = sv.serve
      (if !E.createDirAll id then throw .writeError
      else if !E.canOpen id key || readLocked then hang
      else modify fun sv => { sv with repoStores := insert id sv.repoStores }) :=
    serve_bind_of_ok hread _
  refine ⟨key, ?_⟩
  rw [hbind, hdir]
  cases E.canOpen id key <;> cases readLocked <;> rfl

theorem Openable.of_serve_openRepostore (h : Openable E sv id) {readLocked : Bool}
    {res : Except ProtocolError Unit} (hserve : sv.serve (openRepostore E readLocked id) =
      some (res, sv')) :
    readLocked = false ∧ res = .ok () ∧ sv' =
    { sv with repoStores := insert id sv.repoStores } := by
  obtain ⟨key, hopen⟩ := h.serve_openRepostore readLocked
  rw [hopen] at hserve
  split at hserve
  · cases hserve
  · rename_i hfree
    rw [Bool.or_eq_true, not_or, Bool.not_eq_true] at hfree
    cases hserve
    exact ⟨Bool.not_eq_true _ ▸ hfree.2, rfl, rfl⟩

/-! ## The calls of the cache -/

/-- A call finds the repo of an overlay that is not in the cache, and fails to open its repo
store. -/
def FailsToOpen (E : Env) (sv : BrokerServer) (overlay : OverlayId) : Prop :=
  sv.mode = .localMode ∧ sv.overlayidToRepostore overlay = none ∧
    ∃ repo, sv.RepoOf overlay repo ∧ ¬ Openable E sv (.repo repo)

/-- A call that fails to open the repo store, which is not open. -/
def LeavesDangling (E : Env) (sv : BrokerServer) (overlay : OverlayId) : Prop :=
  sv.mode = .localMode ∧ sv.overlayidToRepostore overlay = none ∧
    ∃ repo, sv.RepoOf overlay repo ∧ ¬ Openable E sv (.repo repo) ∧ .repo repo ∉ sv.repoStores

theorem LeavesDangling.failsToOpen (h : LeavesDangling E sv overlay) :
    FailsToOpen E sv overlay := by
  obtain ⟨hmode, hcached, repo, hrepo, hopen, -⟩ := h
  exact ⟨hmode, hcached, repo, hrepo, hopen⟩

section Resolve

variable {repo : PubKey}

theorem serve_resolveRepostore :
    sv.serve (resolveRepostore E overlay) = sv.serve (match sv.mode with
    | .coreMode =>
      if .overlay overlay ∈ sv.repoStores then pure (.overlay overlay)
      else openRepostore E true (.overlay overlay) >>= fun _ => pure (.overlay overlay)
    | .localMode => match sv.overlayidToRepostore overlay with
      | some repostoreId =>
        if repostoreId ∈ sv.repoStores then pure repostoreId else throw .brokerError
      | none => LockedM.readRepo overlay >>= fun repoId => do
        modify fun sv => sv.cache overlay (.repo repoId)
        openRepostore E false (.repo repoId)
        return .repo repoId) := rfl

/-- The call that finds the repo of an overlay that is not in the cache inserts the overlay. -/
theorem RepoOf.serve_resolveRepostore (h : sv.RepoOf overlay repo) (hmode : sv.mode = .localMode)
    (hcached : sv.overlayidToRepostore overlay = none) : sv.serve (resolveRepostore E overlay) =
      (sv.cache overlay (.repo repo)).serve
        (openRepostore E false (.repo repo) >>= fun _ => pure (.repo repo)) := by
  rw [BrokerServer.serve_resolveRepostore, hmode, hcached]
  dsimp only
  rw [serve_bind_of_ok h.serve_readRepo, serve_bind_of_ok (serve_modify _)]

/-- The overlay stays in the cache if its repo store can not be opened. -/
theorem RepoOf.serve_resolveRepostore_of_not (h : sv.RepoOf overlay repo)
    (hmode : sv.mode = .localMode)
    (hcached : sv.overlayidToRepostore overlay = none) (hopen : ¬ Openable E sv (.repo repo)) :
    ∃ e, sv.serve (resolveRepostore E overlay) =
    some (.error e, sv.cache overlay (.repo repo)) := by
  have hopen' : ¬ Openable E (sv.cache overlay (.repo repo)) (.repo repo) := hopen
  obtain ⟨e, he⟩ := serve_openRepostore_of_not hopen' false
  refine ⟨e, ?_⟩
  rw [h.serve_resolveRepostore hmode hcached, serve_bind_eq, he]

/-- What a call does before it runs its operation: nothing, or it inserts the overlay into the
cache, and opens the repo store if it can. -/
theorem resolveRepostore_cases {res : Except ProtocolError RepoStoreId}
    (h : sv.serve (resolveRepostore E overlay) = some (res, sv')) :
    sv' = sv ∨ (∃ repo, sv.mode = .localMode ∧ sv.overlayidToRepostore overlay = none ∧
      sv.RepoOf overlay repo ∧
      ((¬ Openable E sv (.repo repo) ∧ sv' = sv.cache overlay (.repo repo)) ∨
        (res = .ok (.repo repo) ∧ sv' = { sv.cache overlay (.repo repo) with
          repoStores := insert (.repo repo) sv.repoStores }))) := by
  cases hmode : sv.mode with
  | coreMode =>
    rw [serve_resolveRepostore, hmode] at h
    dsimp only at h
    split at h
    · cases h
      exact .inl rfl
    · by_cases hopen : Openable E sv (.overlay overlay)
      · -- the repo store is never opened under the guard `reader`
        obtain ⟨_, _, hserve, -⟩ | ⟨_, -, hserve⟩ := serve_bind h
        · exact nomatch (hopen.of_serve_openRepostore hserve).1
        · exact nomatch (hopen.of_serve_openRepostore hserve).1
      · obtain ⟨e, he⟩ := serve_openRepostore_of_not hopen true
        rw [serve_bind_eq, he] at h
        cases h
        exact .inl rfl
  | localMode =>
    cases hcached : sv.overlayidToRepostore overlay with
    | some repostoreId =>
      rw [serve_resolveRepostore, hmode] at h
      dsimp only at h
      rw [hcached] at h
      dsimp only at h
      split at h
      · cases h
        exact .inl rfl
      · cases h
        exact .inl rfl
    | none =>
      by_cases hrepo : ∃ repo, sv.RepoOf overlay repo
      · obtain ⟨repo, hrepo⟩ := hrepo
        refine .inr ⟨repo, rfl, rfl, hrepo, ?_⟩
        by_cases hopen : Openable E sv (.repo repo)
        · have hopen' : Openable E (sv.cache overlay (.repo repo)) (.repo repo) := hopen
          rw [hrepo.serve_resolveRepostore hmode hcached] at h
          obtain ⟨_, sv₁, hserve, h⟩ | ⟨_, -, hserve⟩ := serve_bind h
          · obtain ⟨-, -, rfl⟩ := hopen'.of_serve_openRepostore hserve
            cases h
            exact .inr ⟨rfl, rfl⟩
          · exact nomatch (hopen'.of_serve_openRepostore hserve).2.1
        · obtain ⟨e, he⟩ := hrepo.serve_resolveRepostore_of_not hmode hcached hopen
          rw [he] at h
          cases h
          exact .inl ⟨hopen, rfl⟩
      · obtain ⟨e, he⟩ := serve_readRepo_of_not (not_exists.mp hrepo)
        rw [serve_resolveRepostore, hmode, hcached] at h
        dsimp only at h
        rw [serve_bind_eq, he] at h
        cases h
        exact .inl rfl

/-- An overlay whose repo store is not open stays so: its calls fail. -/
theorem serve_getRepostoreFromOverlayId_closed {α : Type} {f : StoreM ClockedStore (RepoResult α)}
    (hmode : sv.mode = .localMode) (hcached : sv.overlayidToRepostore overlay = some id)
    (hclosed : id ∉ sv.repoStores) :
    sv.serve (getRepostoreFromOverlayId E overlay f) = some (.error .brokerError, sv) := by
  have hresolve : sv.serve (resolveRepostore E overlay) = some (.error .brokerError, sv) := by
    rw [serve_resolveRepostore, hmode, hcached]
    dsimp only
    rw [if_neg hclosed, serve_throw]
  rw [getRepostoreFromOverlayId_eq, serve_bind_eq, hresolve]

/-- In core mode, the call that opens the repo store of the overlay waits for itself. -/
def LockedOut (E : Env) (sv : BrokerServer) (overlay : OverlayId) : Prop :=
  sv.mode = .coreMode ∧ .overlay overlay ∉ sv.repoStores ∧ Openable E sv (.overlay overlay)

/-- If LMDB opens the repo stores, every other call comes to its operation or fails. -/
theorem serve_resolveRepostore_eq_none (hopens : ∀ id key, E.canOpen id key = true) :
    sv.serve (resolveRepostore E overlay) = none ↔ LockedOut E sv overlay := by
  have hunlocked : ∀ {sv : BrokerServer} {id : RepoStoreId},
      sv.serve (openRepostore E false id >>= fun _ => pure id) ≠ none := by
    intro sv id
    by_cases hopen : Openable E sv id
    · obtain ⟨key, hserve⟩ := hopen.serve_openRepostore false
      rw [hopens] at hserve
      rw [serve_bind_eq, hserve]
      nofun
    · obtain ⟨e, he⟩ := serve_openRepostore_of_not hopen false
      rw [serve_bind_eq, he]
      nofun
  cases hmode : sv.mode with
  | coreMode =>
    rw [serve_resolveRepostore, hmode]
    dsimp only
    by_cases hmem : .overlay overlay ∈ sv.repoStores
    · rw [if_pos hmem]
      exact iff_of_false nofun fun h => h.2.1 hmem
    · rw [if_neg hmem, serve_bind_eq]
      by_cases hopen : Openable E sv (.overlay overlay)
      · obtain ⟨key, hserve⟩ := hopen.serve_openRepostore true
        rw [Bool.or_true, if_pos rfl] at hserve
        rw [hserve]
        exact iff_of_true rfl ⟨hmode, hmem, hopen⟩
      · obtain ⟨e, he⟩ := serve_openRepostore_of_not hopen true
        rw [he]
        exact iff_of_false nofun fun h => hopen h.2.2
  | localMode =>
    refine iff_of_false (fun hnone => ?_) fun h => nomatch hmode.symm.trans h.1
    cases hcached : sv.overlayidToRepostore overlay with
    | some repostoreId =>
      rw [serve_resolveRepostore, hmode, hcached] at hnone
      dsimp only at hnone
      split at hnone <;> cases hnone
    | none =>
      by_cases hrepo : ∃ repo, sv.RepoOf overlay repo
      · obtain ⟨repo, hrepo⟩ := hrepo
        rw [hrepo.serve_resolveRepostore hmode hcached] at hnone
        exact hunlocked hnone
      · obtain ⟨e, he⟩ := serve_readRepo_of_not (not_exists.mp hrepo)
        rw [serve_resolveRepostore, hmode, hcached] at hnone
        dsimp only at hnone
        rw [serve_bind_eq, he] at hnone
        cases hnone

/-- The operation of a call changes the content of a repo store only. -/
theorem serve_get_resolve {α : Type} {f : StoreM ClockedStore (RepoResult α)}
    {res : Except ProtocolError α}
    (h : sv.serve (getRepostoreFromOverlayId E overlay f) = some (res, sv')) :
    ∃ res₁ sv₁ disk, sv.serve (resolveRepostore E overlay) = some (res₁, sv₁) ∧
      sv' = { sv₁ with disk } := by
  rw [getRepostoreFromOverlayId_eq] at h
  obtain ⟨id, sv₁, hresolve, h⟩ | ⟨e, -, hresolve⟩ := serve_bind h
  · obtain ⟨c, -, rfl⟩ := serve_onRepoStore h
    exact ⟨.ok id, sv₁, _, hresolve, rfl⟩
  · exact ⟨.error e, sv', sv'.disk, hresolve, rfl⟩

end Resolve

/-! ## Runs -/

/-- A call of `get_repostore_from_overlay_id`, with what the outside world answers to it. -/
structure RepoCall where
  env : Env
  overlay : OverlayId
  α : Type
  f : StoreM ClockedStore (RepoResult α)

/-- What happens to the server: a call, or a change of the records by other requests. -/
inductive CacheEvent
  | call (c : RepoCall)
  | records (store : LmdbBrokerStore)

namespace CacheEvent

/-- The server after an event; none if the call does not return. -/
def step (sv : BrokerServer) : CacheEvent → Option BrokerServer
  | call c => (sv.serve (getRepostoreFromOverlayId c.env c.overlay c.f)).map Prod.snd
  | records store => some { sv with store }

/-- The event is a call for which `C` holds. -/
def IsCall (C : Env → BrokerServer → OverlayId → Prop) (sv : BrokerServer) : CacheEvent → Prop
  | call c => C c.env sv c.overlay
  | records _ => False

/-- A call that fails before it runs its operation leaves the server as it was, so that every later
call has the result that it would have had. -/
def FailsWithoutEffect (sv : BrokerServer) : CacheEvent → Prop
  | call c => ∀ e sv', sv.serve (resolveRepostore c.env c.overlay) = some (.error e, sv') → sv' = sv
  | records _ => True

variable {event : CacheEvent}

theorem cacheOpen_step (h : sv.CacheOpen) (hsafe : ¬ IsCall LeavesDangling sv event)
    (hstep : step sv event = some sv') : sv'.CacheOpen := by
  cases event with
  | records store =>
    cases hstep
    exact h
  | call c =>
    obtain ⟨⟨res, _⟩, hserve, rfl⟩ := Option.map_eq_some_iff.mp hstep
    obtain ⟨res₁, sv₁, disk, hresolve, rfl⟩ := serve_get_resolve hserve
    have hopen : sv₁.CacheOpen := by
      obtain rfl | ⟨repo, hmode, hcached, hrepo, ⟨hopen, rfl⟩ | ⟨-, rfl⟩⟩ :=
        resolveRepostore_cases hresolve
      · exact h
      · refine h.cache (by_contra fun hclosed => hsafe ?_)
        exact ⟨hmode, hcached, repo, hrepo, hopen, hclosed⟩
      · have hinsert :
          ({ sv with repoStores := insert (.repo repo) sv.repoStores } : BrokerServer).CacheOpen :=
          fun overlay id hid => Finset.mem_insert_of_mem (h overlay id hid)
        exact hinsert.cache (Finset.mem_insert_self ..)
    exact hopen

theorem not_cacheOpen_step (hdangling : IsCall LeavesDangling sv event)
    (hstep : step sv event = some sv') : ¬ sv'.CacheOpen := by
  cases event with
  | records store => exact hdangling.elim
  | call c =>
    obtain ⟨hmode, hcached, repo, hrepo, hopen, hclosed⟩ := hdangling
    obtain ⟨⟨res, _⟩, hserve, rfl⟩ := Option.map_eq_some_iff.mp hstep
    obtain ⟨res₁, sv₁, disk, hresolve, rfl⟩ := serve_get_resolve hserve
    obtain ⟨e, he⟩ := hrepo.serve_resolveRepostore_of_not hmode hcached hopen
    rw [he] at hresolve
    cases hresolve
    exact not_cacheOpen_cache hclosed

theorem failsWithoutEffect_iff (sv : BrokerServer) (event : CacheEvent) :
    FailsWithoutEffect sv event ↔ ¬ IsCall FailsToOpen sv event := by
  cases event with
  | records store => exact iff_of_true trivial id
  | call c =>
    constructor
    · rintro h ⟨hmode, hcached, repo, hrepo, hopen⟩
      obtain ⟨e, he⟩ := hrepo.serve_resolveRepostore_of_not hmode hcached hopen
      exact cache_ne hcached (h e _ he)
    · intro h e sv' he
      obtain hsame | ⟨repo, hmode, hcached, hrepo, ⟨hopen, -⟩ | ⟨hok, -⟩⟩ :=
        resolveRepostore_cases he
      · exact hsame
      · exact absurd ⟨hmode, hcached, repo, hrepo, hopen⟩ h
      · cases hok

end CacheEvent

theorem new_cache {store : LmdbBrokerStore} {mode : ConfigMode} {disk : RepoStoreId → LmdbRepoStore}
    (h : BrokerServer.new store mode disk = some (.ok sv)) :
    sv.overlayidToRepostore = fun _ => none := by
  unfold BrokerServer.new at h
  split at h
  · cases h
    rfl
  · cases h
  · cases h

open CacheEvent in
/-- In the runs of a broker, the cache refers to open repo stores only if and only if no call finds
the repo of an overlay that is not in the cache and fails to open its repo store while this is not
open. The calls that fail before they run their operation leave the server as it was if and only if
no call finds the repo of an overlay that is not in the cache and fails to open its repo store. -/
theorem cacheOpen_iff {store : LmdbBrokerStore} {mode : ConfigMode}
    {disk : RepoStoreId → LmdbRepoStore}
    (hnew : BrokerServer.new store mode disk = some (.ok sv)) {events : List CacheEvent}
    (hrun : Steps.run step sv events = some sv') :
    ((∀ before sv₁, before <+: events → Steps.run step sv before = some sv₁ → sv₁.CacheOpen) ↔
      Steps.Along step (fun sv event => ¬ IsCall LeavesDangling sv event) sv events) ∧
    (Steps.Along step FailsWithoutEffect sv events ↔
      Steps.Along step (fun sv event => ¬ IsCall FailsToOpen sv event) sv events) := by
  refine ⟨Steps.invariant_iff_along cacheOpen_step (fun hC hstep => ?_)
    (cacheOpen_empty (new_cache hnew)) hrun, Steps.along_congr failsWithoutEffect_iff⟩
  exact not_cacheOpen_step (not_not.mp hC) hstep

end BrokerServer

/-! ## The first access to an overlay -/

namespace OverlayAccess

open TwoUsers TwoOverlays BrokerServer CacheEvent

/-- The broker with other records. -/
def withRecords (store : LmdbBrokerStore) : BrokerServer := { newBroker with store }

/-- The records after `alice` has joined the overlay. -/
theorem exists_joined : ∃ store, (withRecords store).RepoOf overlay repo ∧
    Openable env (withRecords store) (.repo repo) ∧
    ∃ key, (withRecords store).ServedFrom overlay (.repo repo) key := by
  have hfacts : ¬ (Overlay.record overlay).Exists withAlice.store ∧
      ¬ (RepoStoreInfo.record (.repo repo)).Exists withAlice.store := by decide +kernel
  have hunused := reached_withAlice.localUnused
  obtain ⟨store, -, hrecords, hisOf, hexists⟩ :=
    @LocalRecords.join_new _ _ alice _ hunused.localRecords hfacts.1 hfacts.2 env secret []
  obtain ⟨repo', hisOf', hinfo⟩ := hrecords.isOf overlay hexists
  obtain rfl : repo' = repo := Reference.pubKey.encode_inj ((hisOf _).mp ((hisOf' _).mpr rfl))
  obtain ⟨key, hkey⟩ := hrecords.hasKey _ hinfo
  have hunused' : (withRecords store).LocalUnused := hunused.of_store hrecords rfl
  exact ⟨store, ⟨hexists, hisOf.runOn_repo⟩, ⟨hkey.exists, ⟨key, hkey.runOn_key⟩, rfl⟩, key,
    hunused'.servedFrom hexists hisOf hkey⟩

/-- A call that does nothing with the repo store. -/
def access (env : Env) : CacheEvent := .call ⟨env, overlay, Unit, pure (some (.ok ()))⟩

theorem new_newBroker :
    BrokerServer.new ∅ .localMode (fun _ => .empty) = some (.ok newBroker) := rfl

/-- The records are changed, and then the overlay is accessed. -/
theorem run_access {E : Env} {store : LmdbBrokerStore} {sv : BrokerServer}
    (h : step (withRecords store) (access E) = some sv) :
    Steps.run step newBroker [.records store, access E] = some sv :=
  Steps.run_cons.mpr ⟨withRecords store, rfl, Steps.run_cons.mpr ⟨sv, h, rfl⟩⟩

/-- The first call opens the repo store. -/
theorem cacheOpen_iff_joined : ∃ store sv,
    Steps.run step newBroker [.records store, access env] = some sv ∧
    sv.Resolves overlay (.repo repo) ∧
      ∀ before sv₁, before <+: [.records store, access env] →
        Steps.run step newBroker before = some sv₁ → sv₁.CacheOpen := by
  obtain ⟨store, hrepo, hopen, key, hserved⟩ := exists_joined
  obtain ⟨sv, -, -, hresolves, hserve⟩ := hserved env Unit (pure (some (.ok ()))) rfl
  have hop : sv.serve (onRepoStore env (pure (some (.ok ()))) (.repo repo)) =
    some (.ok (), { sv with
      disk := Function.update sv.disk (.repo repo) (sv.disk (.repo repo)) }) :=
        serve_onRepoStore_run rfl
  have hrun := run_access (Option.map_eq_some_iff.mpr ⟨_, hserve.trans hop, rfl⟩)
  refine ⟨store, _, hrun, ⟨hresolves.1, hresolves.2⟩, (cacheOpen_iff new_newBroker hrun).1.mpr ?_⟩
  refine ⟨id, fun sv₁ hsv₁ => ?_⟩
  cases hsv₁
  refine ⟨?_, fun _ _ => trivial⟩
  rintro ⟨-, -, repo', hrepo', hclosed, -⟩
  obtain rfl := hrepo.unique hrepo'
  exact hclosed hopen

/-- The directory of the repo store can not be created when the overlay is accessed first. -/
theorem not_cacheOpen : ¬ ∀ store mode disk sv, BrokerServer.new store mode disk = some (.ok sv) →
    sv.mode = .localMode → ∀ events sv', Steps.run step sv events = some sv' → sv'.CacheOpen := by
  intro hall
  obtain ⟨store, hrepo, -⟩ := exists_joined
  let full : Env := { env with createDirAll := fun _ => false }
  have hopen : ¬ Openable full (withRecords store) (.repo repo) := fun h => nomatch h.2.2
  obtain ⟨e, he⟩ := hrepo.serve_resolveRepostore_of_not rfl rfl hopen
  have hserve : (withRecords store).serve (getRepostoreFromOverlayId full overlay
      (pure (some (Except.ok ())))) = some
        (.error e, (withRecords store).cache overlay (.repo repo)) := by
    rw [getRepostoreFromOverlayId_eq, serve_bind_eq, he]
  have hrun := run_access (Option.map_eq_some_iff.mpr ⟨_, hserve, rfl⟩)
  exact not_cacheOpen_cache (Finset.notMem_empty _) (hall _ _ _ _ new_newBroker rfl _ _ hrun)

end OverlayAccess

end Lofire
