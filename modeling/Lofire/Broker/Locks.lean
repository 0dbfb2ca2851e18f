import Lofire.Broker.Users

/-!
# The locks of the server

`get_repostore_from_overlay_id` with the locks that it takes. A thread holds a guard of an `RwLock`
until the end of the scope of its variable. A request is recorded with the guards that the thread
holds then, and is never granted if one of these excludes it: the thread waits for itself. The locks
of a call are taken in order, and the call waits for itself if and only if the broker is in core
mode and opens the repo store of the overlay (`locks_disciplined_iff`).
-/

namespace Lofire

open Lib LmdbBrokerStore BrokerServer

inductive RwLock
  | overlayidToRepostore
  | repoStores
  deriving DecidableEq

inductive Access
  | read
  | write
  deriving DecidableEq

/-- A guard of a lock, which a thread holds or requests. -/
structure Guard where
  lock : RwLock
  access : Access
  deriving DecidableEq

namespace Guard

/-- The two guards can not be held at the same time. -/
def Excludes (g g' : Guard) : Prop := g.lock = g'.lock ∧ (g.access = .write ∨ g'.access = .write)

instance (g g' : Guard) : Decidable (g.Excludes g') := inferInstanceAs (Decidable (_ ∧ _))

end Guard

/-- A request for a lock, and the guards that the thread holds then. -/
structure LockRequest where
  wanted : Guard
  held : List Guard
  deriving DecidableEq

/-- The thread waits for itself. -/
def LockRequest.Blocked (r : LockRequest) : Prop := ∃ g ∈ r.held, g.Excludes r.wanted

instance (r : LockRequest) : Decidable r.Blocked := inferInstanceAs (Decidable (∃ _ ∈ _, _))

/-- The server as a thread sees it, and what the thread has done with the locks. -/
structure LockedThread where
  server : BrokerServer
  held : List Guard
  requests : List LockRequest

/-- Why a thread does not go on. -/
inductive Halt
  | error (e : ProtocolError)
  /-- A panic, or an operation that does not return -/
  | noReturn
  /-- It waits for a lock that it holds itself. -/
  | blocked

abbrev LockedM := EStateM Halt LockedThread

namespace LockedM

variable {α : Type}

/-- An operation that takes no lock. -/
def lift (x : ServerM α) : LockedM α := fun t =>
  match t.server.serve x with
  | some (.ok a, server) => .ok a { t with server }
  | some (.error e, server) => .error (.error e) { t with server }
  | none => .error .noReturn t

/-- `lock.read()` or `lock.write()`: the guard lives until the end of the scope. -/
def acquire (g : Guard) : LockedM Unit := fun t =>
  let requests := t.requests ++ [⟨g, t.held⟩]
  if (⟨g, t.held⟩ : LockRequest).Blocked then .error .blocked { t with requests }
  else .ok () { t with requests, held := g :: t.held }

/-- The guards of a scope are dropped at its end. -/
def scope (x : LockedM α) : LockedM α := fun t =>
  match x t with
  | .ok a t' => .ok a { t' with held := t.held }
  | .error .blocked t' => .error .blocked t'
  | .error h t' => .error h { t' with held := t.held }

variable (E : Env)

/-- Read the encryption key of a repo store. -/
def readKey (repostoreId : RepoStoreId) : ServerM SymKey := records do
  match ← ServerProg.result (RepoStoreInfo.openId repostoreId) with
  | .error _ => throw (.ofBrokerError .overlayNotFound)
  | .ok () => ServerProg.ofStore (RepoStoreInfo.key repostoreId)

/-- Read the repo of an overlay. -/
def readRepo (overlayId : OverlayId) : ServerM PubKey := records (ServerProg.ofStore do
  Overlay.openId overlayId
  Overlay.repo overlayId)

def openOrCreateRepostore (repostoreId : RepoStoreId)
    (f : StoreM ClockedStore (RepoResult α)) : LockedM α :=
  scope do
    let key ← lift (readKey repostoreId)
    if !E.createDirAll repostoreId then throw (.error .writeError)
    else if !E.canOpen repostoreId key then throw .noReturn
    else
      acquire ⟨.repoStores, .write⟩
      lift (modify fun sv => { sv with repoStores := insert repostoreId sv.repoStores })
      lift (onRepoStore E f repostoreId)

/-- Look for the repo store of an overlay that has been accessed. -/
def lookupRepostore (overlayId : OverlayId) (f : StoreM ClockedStore (RepoResult α)) :
    LockedM (Option α) := do
  acquire ⟨.overlayidToRepostore, .read⟩
  let t ← get
  match t.server.overlayidToRepostore overlayId with
  | some repostoreId =>
    acquire ⟨.repoStores, .read⟩
    let t ← get
    if repostoreId ∈ t.server.repoStores then
      let a ← lift (onRepoStore E f repostoreId)
      return some a
    else throw (.error .brokerError)
  | none => return none

/-- The branch of a broker in core mode. -/
def coreRepostore (overlayId : OverlayId) (f : StoreM ClockedStore (RepoResult α)) : LockedM α := do
  acquire ⟨.repoStores, .read⟩
  let t ← get
  if .overlay overlayId ∈ t.server.repoStores then lift (onRepoStore E f (.overlay overlayId))
  else openOrCreateRepostore E (.overlay overlayId) f

/-- The branch of a broker in local mode. -/
def localRepostore (overlayId : OverlayId)
    (f : StoreM ClockedStore (RepoResult α)) : LockedM α := do
  match ← scope (lookupRepostore E overlayId f) with
  | some a => return a
  | none =>
    let repoId ← lift (readRepo overlayId)
    acquire ⟨.overlayidToRepostore, .write⟩
    lift (modify fun sv => { sv with
      overlayidToRepostore :=
        Function.update sv.overlayidToRepostore overlayId (some (.repo repoId)) })
    openOrCreateRepostore E (.repo repoId) f

def getRepostoreFromOverlayId (overlayId : OverlayId) (f : StoreM ClockedStore (RepoResult α)) :
    LockedM α := scope do
  let t ← get
  match t.server.mode with
  | .coreMode => coreRepostore E overlayId f
  | .localMode => localRepostore E overlayId f

/-! ## The server without the locks -/

/-- The outcome for the caller, and the server afterwards. -/
def erase : EStateM.Result Halt LockedThread α → Option (Except ProtocolError α × BrokerServer)
  | .ok a t => some (.ok a, t.server)
  | .error (.error e) t => some (.error e, t.server)
  | .error _ _ => none

/-- The state of the thread at the end. -/
def final : EStateM.Result Halt LockedThread α → LockedThread
  | .ok _ t => t
  | .error _ t => t

variable {E} {β : Type} {t : LockedThread}

theorem bind_eq {γ : Type} (x : LockedM γ) (f : γ → LockedM β) (t : LockedThread) : (x >>= f) t =
    match x t with
    | .ok a t' => f a t'
    | .error h t' => .error h t' := by
  show EStateM.bind x f t = _
  unfold EStateM.bind
  cases x t <;> rfl

theorem lift_bind (x : ServerM α) (f : α → LockedM β) : (lift x >>= f) t =
    match t.server.serve x with
    | some (.ok a, server) => f a { t with server }
    | some (.error e, server) => .error (.error e) { t with server }
    | none => .error .noReturn t := by
  rw [bind_eq]
  unfold lift
  obtain hx | ⟨⟨e | a, server⟩, hx⟩ := Option.eq_none_or_eq_some (t.server.serve x) <;> rw [hx]

theorem erase_lift (x : ServerM α) : erase (lift x t) = t.server.serve x := by
  unfold lift
  obtain hx | ⟨⟨e | a, server⟩, hx⟩ :=
    Option.eq_none_or_eq_some (t.server.serve x) <;> rw [hx] <;> rfl

theorem acquire_bind {server : BrokerServer} {held : List Guard}
    {requests : List LockRequest} {g : Guard}
    (f : Unit → LockedM β) : (acquire g >>= f) ⟨server, held, requests⟩ =
      if (⟨g, held⟩ : LockRequest).Blocked then
      .error .blocked ⟨server, held, requests ++ [⟨g, held⟩]⟩
      else f () ⟨server, g :: held, requests ++ [⟨g, held⟩]⟩ := by
  rw [bind_eq]
  unfold acquire
  by_cases h : (⟨g, held⟩ : LockRequest).Blocked
  · rw [if_pos h, if_pos h]
  · rw [if_neg h, if_neg h]

theorem get_bind (f : LockedThread → LockedM β) :
    ((get : LockedM LockedThread) >>= f) t = f t t := rfl

theorem erase_scope (x : LockedM α) : erase (scope x t) = erase (x t) := by
  unfold scope
  obtain ⟨a, t'⟩ | ⟨e | _ | _, t'⟩ := x t <;> rfl

theorem requests_scope (x : LockedM α) : (final (scope x t)).requests = (final (x t)).requests := by
  unfold scope
  obtain ⟨a, t'⟩ | ⟨e | _ | _, t'⟩ := x t <;> rfl

/-- The repo store is opened, as the server opens it. -/
theorem erase_openOrCreateRepostore {readLocked : Bool} {id : RepoStoreId}
    (f : StoreM ClockedStore (RepoResult α))
    (h : (⟨⟨.repoStores, .write⟩, t.held⟩ : LockRequest).Blocked ↔ readLocked = true) :
    erase (openOrCreateRepostore E id f t) =
      t.server.serve (BrokerServer.openOrCreateRepostore E readLocked id f) := by
  have hserve : t.server.serve (BrokerServer.openOrCreateRepostore E readLocked id f) =
      t.server.serve (readKey id >>= fun key =>
        if !E.createDirAll id then throw .writeError
        else if !E.canOpen id key || readLocked then hang
        else do
          modify fun sv => { sv with repoStores := insert id sv.repoStores }
          onRepoStore E f id) := rfl
  rw [hserve, serve_bind_eq, openOrCreateRepostore, erase_scope, lift_bind]
  obtain hkey | ⟨⟨e | key, server⟩, hkey⟩ := Option.eq_none_or_eq_some (t.server.serve (readKey id))
  · rw [hkey]
    rfl
  · rw [hkey]
    rfl
  · rw [hkey]
    dsimp only
    cases hdir : E.createDirAll id with
    | false => rfl
    | true =>
      cases hcan : E.canOpen id key with
      | false => rfl
      | true =>
        have hthread : (if (!true) = true then throw (.error .writeError)
            else if (!true) = true then throw .noReturn
            else do
              acquire ⟨.repoStores, .write⟩
              lift (modify fun sv => { sv with repoStores := insert id sv.repoStores })
              lift (onRepoStore E f id) : LockedM α) { t with server } =
            if (⟨⟨.repoStores, .write⟩, t.held⟩ : LockRequest).Blocked then
              .error .blocked { t with server, requests :=
                t.requests ++ [⟨⟨.repoStores, .write⟩, t.held⟩] }
            else lift (onRepoStore E f id) { t with
              server := { server with repoStores := insert id server.repoStores }
              requests := t.requests ++ [⟨⟨.repoStores, .write⟩, t.held⟩]
              held := ⟨.repoStores, .write⟩ :: t.held } := by
          refine (acquire_bind _).trans ?_
          rw [lift_bind]
          rfl
        rw [hthread]
        cases readLocked with
        | true =>
          rw [if_pos (h.mpr rfl)]
          rfl
        | false =>
          rw [if_neg fun hblocked => nomatch h.mp hblocked]
          have hopened : server.serve (do
              modify fun sv => { sv with repoStores := insert id sv.repoStores }
              onRepoStore E f id) =
            { server with repoStores := insert id server.repoStores }.serve (onRepoStore E f id) :=
            serve_bind_of_ok (serve_modify _) _
          exact (erase_lift _).trans hopened.symm

/-! ## The paths of a call -/

variable {sv : BrokerServer} {overlayId : OverlayId} {f : StoreM ClockedStore (RepoResult α)}

/-- The request of a thread that holds the guards `held`. -/
abbrev reading (lock : RwLock) (held : List Guard) : LockRequest := ⟨⟨lock, .read⟩, held⟩

abbrev writing (lock : RwLock) (held : List Guard) : LockRequest := ⟨⟨lock, .write⟩, held⟩

theorem coreRepostore_eq : coreRepostore E overlayId f ⟨sv, [], []⟩ =
    (if .overlay overlayId ∈ sv.repoStores then lift (onRepoStore E f (.overlay overlayId))
    else openOrCreateRepostore E (.overlay overlayId) f)
      ⟨sv, [⟨.repoStores, .read⟩], [reading .repoStores []]⟩ := by
  refine (acquire_bind _).trans ?_
  rw [if_neg (by decide)]
  rfl

/-- The overlay has been accessed. -/
theorem lookupRepostore_cached {repostoreId : RepoStoreId}
    (h : sv.overlayidToRepostore overlayId = some repostoreId) :
    lookupRepostore E overlayId f ⟨sv, [], []⟩ = (if repostoreId ∈ sv.repoStores then do
        let a ← lift (onRepoStore E f repostoreId)
        return some a
      else throw (.error .brokerError) : LockedM (Option α))
      ⟨sv, [⟨.repoStores, .read⟩, ⟨.overlayidToRepostore, .read⟩],
        [reading .overlayidToRepostore [],
          reading .repoStores [⟨.overlayidToRepostore, .read⟩]]⟩ := by
  unfold lookupRepostore
  rw [acquire_bind, if_neg (by decide), get_bind]
  dsimp only
  rw [h]
  dsimp only
  rw [acquire_bind, if_neg (by decide), get_bind]
  rfl

/-- The overlay has not been accessed. -/
theorem lookupRepostore_new (h : sv.overlayidToRepostore overlayId = none) :
    lookupRepostore E overlayId f ⟨sv, [], []⟩ =
      .ok none ⟨sv, [⟨.overlayidToRepostore, .read⟩], [reading .overlayidToRepostore []]⟩ := by
  unfold lookupRepostore
  rw [acquire_bind, if_neg (by decide), get_bind]
  dsimp only
  rw [h]
  rfl

/-- The call on an overlay that has been accessed. -/
theorem localRepostore_cached {repostoreId : RepoStoreId}
    (h : sv.overlayidToRepostore overlayId = some repostoreId) :
    (final (localRepostore E overlayId f ⟨sv, [], []⟩)).requests =
        [reading .overlayidToRepostore [], reading .repoStores [⟨.overlayidToRepostore, .read⟩]] ∧
      erase (localRepostore E overlayId f ⟨sv, [], []⟩) =
        sv.serve (if repostoreId ∈ sv.repoStores then onRepoStore E f repostoreId
          else throw .brokerError) := by
  unfold localRepostore
  rw [bind_eq]
  unfold scope
  rw [lookupRepostore_cached h]
  by_cases hopen : repostoreId ∈ sv.repoStores
  · rw [if_pos hopen, if_pos hopen, lift_bind]
    obtain hrun | ⟨⟨e | a, server⟩, hrun⟩ :=
      Option.eq_none_or_eq_some (sv.serve (onRepoStore E f repostoreId)) <;>
      rw [hrun] <;> exact ⟨rfl, rfl⟩
  · rw [if_neg hopen, if_neg hopen]
    exact ⟨rfl, rfl⟩

/-- The call on an overlay that has not been accessed. -/
theorem localRepostore_new (h : sv.overlayidToRepostore overlayId = none) :
    localRepostore E overlayId f ⟨sv, [], []⟩ = (do
      let repoId ← lift (readRepo overlayId)
      acquire ⟨.overlayidToRepostore, .write⟩
      lift (modify fun sv => { sv with
        overlayidToRepostore :=
        Function.update sv.overlayidToRepostore overlayId (some (.repo repoId)) })
      openOrCreateRepostore E (.repo repoId) f : LockedM α)
        ⟨sv, [], [reading .overlayidToRepostore []]⟩ := by
  have hscope : scope (lookupRepostore E overlayId f) ⟨sv, [], []⟩ =
      .ok none ⟨sv, [], [reading .overlayidToRepostore []]⟩ := by
    unfold scope
    rw [lookupRepostore_new h]
  unfold localRepostore
  rw [bind_eq, hscope]

/-! ## The requests of a call -/

/-- The repo store can be opened: its key is known, and LMDB opens it. -/
def Opens (E : Env) (sv : BrokerServer) (id : RepoStoreId) : Prop :=
  (RepoStoreInfo.record id).Exists sv.store ∧ ∃ key,
    runOn (RepoStoreInfo.key id) sv.store = (.ok key, sv.store) ∧ E.createDirAll id = true ∧
      E.canOpen id key = true

theorem serve_readKey (id : RepoStoreId) : sv.serve (readKey id) =
    some (if (RepoStoreInfo.record id).Exists sv.store then
      (runOn (RepoStoreInfo.key id) sv.store).1.mapError ProtocolError.ofStorageError
      else .error (.ofBrokerError .overlayNotFound), sv) := by
  have hopen : runServer (ServerProg.result (RepoStoreInfo.openId id)) sv.store =
      (some (.ok (if (RepoStoreInfo.record id).Exists sv.store then .ok () else .error .notFound)),
        sv.store) := by
    rw [runServer_result, RepoStoreInfo.openId, Record.runOn_openRecord]
  refine serve_records_run ((runServer_bind_ok hopen _).trans ?_)
  by_cases hexists : (RepoStoreInfo.record id).Exists sv.store
  · rw [if_pos hexists, if_pos hexists]
    refine (runServer_ofStore _).trans ?_
    have hstate : (runOn (RepoStoreInfo.key id) sv.store).2 = sv.store :=
      Record.runOn_property_state _
    rw [hstate]
  · rw [if_neg hexists, if_neg hexists]
    rfl

theorem requests_lift (x : ServerM α) : (final (lift x t)).requests = t.requests := by
  unfold lift
  obtain hx | ⟨⟨e | a, server⟩, hx⟩ :=
    Option.eq_none_or_eq_some (t.server.serve x) <;> rw [hx] <;> rfl

variable {held : List Guard} {requests : List LockRequest} {id : RepoStoreId}

/-- A repo store that is opened is inserted under the write lock. -/
theorem requests_openOrCreateRepostore (h : Opens E sv id) :
    (final (openOrCreateRepostore E id f ⟨sv, held, requests⟩)).requests =
      requests ++ [writing .repoStores held] := by
  obtain ⟨hexists, key, hkey, hdir, hcan⟩ := h
  have hread : sv.serve (readKey id) = some (.ok key, sv) := by
    rw [serve_readKey, if_pos hexists, hkey]
    rfl
  unfold openOrCreateRepostore
  rw [requests_scope, lift_bind, hread]
  dsimp only
  rw [hdir, hcan]
  show (final ((acquire ⟨.repoStores, .write⟩ >>= fun _ => _) _)).requests = _
  rw [acquire_bind]
  split
  · rfl
  · rw [lift_bind]
    exact requests_lift _

/-- A repo store that is not opened takes no lock. -/
theorem requests_openOrCreateRepostore_of_not (h : ¬ Opens E sv id) :
    (final (openOrCreateRepostore E id f ⟨sv, held, requests⟩)).requests = requests := by
  unfold openOrCreateRepostore
  rw [requests_scope, lift_bind, serve_readKey]
  by_cases hexists : (RepoStoreInfo.record id).Exists sv.store
  · rw [if_pos hexists]
    cases hkey : (runOn (RepoStoreInfo.key id) sv.store).1 with
    | error e => rfl
    | ok key =>
      have hrun : runOn (RepoStoreInfo.key id) sv.store = (.ok key, sv.store) :=
        Prod.ext hkey (Record.runOn_property_state _)
      dsimp only [Except.mapError]
      cases hdir : E.createDirAll id with
      | false => rfl
      | true =>
        cases hcan : E.canOpen id key with
        | false => rfl
        | true => exact absurd ⟨hexists, key, hrun, hdir, hcan⟩ h
  · rw [if_neg hexists]
    rfl

/-- The requests of a call on an overlay that has not been accessed, in local mode. -/
theorem requests_localRepostore_new (h : sv.overlayidToRepostore overlayId = none) :
    ∃ later, (later = [] ∨ later = [writing .overlayidToRepostore []] ∨
        later = [writing .overlayidToRepostore [],
          writing .repoStores [⟨.overlayidToRepostore, .write⟩]]) ∧
      (final (localRepostore E overlayId f ⟨sv, [], []⟩)).requests =
      reading .overlayidToRepostore [] :: later := by
  rw [localRepostore_new h, lift_bind]
  obtain hrepo | ⟨⟨e | repoId, server⟩, hrepo⟩ :=
    Option.eq_none_or_eq_some (sv.serve (readRepo overlayId))
  · rw [hrepo]
    exact ⟨[], .inl rfl, rfl⟩
  · rw [hrepo]
    exact ⟨[], .inl rfl, rfl⟩
  · rw [hrepo]
    dsimp only
    rw [acquire_bind, if_neg (by decide), lift_bind, serve_modify]
    dsimp only
    let cached : BrokerServer := { server with
      overlayidToRepostore :=
        Function.update server.overlayidToRepostore overlayId (some (.repo repoId)) }
    by_cases hopens : Opens E cached (.repo repoId)
    · exact ⟨_, .inr (.inr rfl), requests_openOrCreateRepostore hopens⟩
    · exact ⟨_, .inr (.inl rfl), requests_openOrCreateRepostore_of_not hopens⟩

theorem getRepostoreFromOverlayId_core (h : sv.mode = .coreMode) :
    getRepostoreFromOverlayId E overlayId f ⟨sv, [], []⟩ =
    scope (coreRepostore E overlayId f) ⟨sv, [], []⟩ := by
  unfold getRepostoreFromOverlayId scope
  rw [get_bind]
  dsimp only
  rw [h]

theorem getRepostoreFromOverlayId_local (h : sv.mode = .localMode) :
    getRepostoreFromOverlayId E overlayId f ⟨sv, [], []⟩ =
    scope (localRepostore E overlayId f) ⟨sv, [], []⟩ := by
  unfold getRepostoreFromOverlayId scope
  rw [get_bind]
  dsimp only
  rw [h]

/-- Up to its requests, the call is the one of the server, which does not return if it waits for
itself. -/
theorem erase_getRepostoreFromOverlayId (sv : BrokerServer) (overlayId : OverlayId)
    (f : StoreM ClockedStore (RepoResult α)) :
    erase (getRepostoreFromOverlayId E overlayId f ⟨sv, [], []⟩) =
      sv.serve (BrokerServer.getRepostoreFromOverlayId E overlayId f) := by
  have hserve : sv.serve (BrokerServer.getRepostoreFromOverlayId E overlayId f) =
    sv.serve (match sv.mode with
    | .coreMode =>
      if .overlay overlayId ∈ sv.repoStores then onRepoStore E f (.overlay overlayId)
      else BrokerServer.openOrCreateRepostore E true (.overlay overlayId) f
    | .localMode => match sv.overlayidToRepostore overlayId with
      | some repostoreId =>
        if repostoreId ∈ sv.repoStores then onRepoStore E f repostoreId else throw .brokerError
      | none => readRepo overlayId >>= fun repoId => do
        modify fun sv => { sv with
          overlayidToRepostore :=
            Function.update sv.overlayidToRepostore overlayId (some (.repo repoId)) }
        BrokerServer.openOrCreateRepostore E false (.repo repoId) f) := rfl
  rw [hserve]
  cases hmode : sv.mode with
  | coreMode =>
    rw [getRepostoreFromOverlayId_core hmode, erase_scope, coreRepostore_eq]
    by_cases hopen : .overlay overlayId ∈ sv.repoStores
    · rw [if_pos hopen, erase_lift]
      simp only [if_pos hopen]
    · have hblocked : (writing .repoStores [⟨.repoStores, .read⟩]).Blocked ↔ true = true :=
        iff_of_true (by decide) rfl
      rw [if_neg hopen, erase_openOrCreateRepostore f hblocked]
      simp only [if_neg hopen]
  | localMode =>
    rw [getRepostoreFromOverlayId_local hmode, erase_scope]
    cases hcached : sv.overlayidToRepostore overlayId with
    | some repostoreId => exact (localRepostore_cached hcached).2
    | none =>
      dsimp only
      rw [localRepostore_new hcached, lift_bind, serve_bind_eq]
      obtain hrepo | ⟨⟨e | repoId, server⟩, hrepo⟩ :=
        Option.eq_none_or_eq_some (sv.serve (readRepo overlayId))
      · rw [hrepo]
        rfl
      · rw [hrepo]
        rfl
      · rw [hrepo]
        dsimp only
        rw [acquire_bind, if_neg (by decide), lift_bind, serve_modify,
          serve_bind_of_ok (serve_modify _)]
        have hfree : ¬ (writing .repoStores [⟨.overlayidToRepostore, .write⟩]).Blocked := by decide
        exact erase_openOrCreateRepostore f (iff_of_false hfree nofun)

/-- The lock discipline: no request for a lock of which the thread holds a guard, unless both are
for reading, and `overlayid_to_repostore` before `repo_stores`. -/
def Disciplined (r : LockRequest) : Prop :=
  (r.wanted.access = .write → ∀ g ∈ r.held, g.lock ≠ r.wanted.lock) ∧
  (r.wanted.access = .read → ∀ g ∈ r.held, g.lock = r.wanted.lock → g.access = .read) ∧
  (r.wanted.lock = .overlayidToRepostore → ∀ g ∈ r.held, g.lock ≠ .repoStores)

instance (r : LockRequest) : Decidable (Disciplined r) := inferInstanceAs (Decidable (_ ∧ _ ∧ _))

/-- The requests of a call keep to the discipline, unless the broker is in core mode and opens the
repo store of the overlay. -/
theorem locks_disciplined_iff (E : Env) (sv : BrokerServer) (overlayId : OverlayId)
    (f : StoreM ClockedStore (RepoResult α)) :
    (∀ r ∈ (final (getRepostoreFromOverlayId E overlayId f ⟨sv, [], []⟩)).requests, Disciplined r) ↔
      ¬ (sv.mode = .coreMode ∧ .overlay overlayId ∉ sv.repoStores ∧
        Opens E sv (.overlay overlayId)) := by
  cases hmode : sv.mode with
  | coreMode =>
    rw [getRepostoreFromOverlayId_core hmode, requests_scope, coreRepostore_eq]
    by_cases hopen : .overlay overlayId ∈ sv.repoStores
    · rw [if_pos hopen, requests_lift]
      exact iff_of_true (by simp only [List.forall_mem_singleton]; decide) fun h => h.2.1 hopen
    · rw [if_neg hopen]
      by_cases hopens : Opens E sv (.overlay overlayId)
      · rw [requests_openOrCreateRepostore hopens]
        refine iff_of_false (fun h => ?_) fun h => h ⟨rfl, hopen, hopens⟩
        -- the write lock is requested under the guard `reader`
        have hblocked := h (writing .repoStores [⟨.repoStores, .read⟩]) (by simp)
        exact absurd hblocked (by decide)
      · rw [requests_openOrCreateRepostore_of_not hopens]
        exact iff_of_true (by simp only [List.forall_mem_singleton]; decide) fun h => hopens h.2.2
  | localMode =>
    rw [getRepostoreFromOverlayId_local hmode, requests_scope]
    refine iff_of_true ?_ fun h => nomatch h.1
    cases hcached : sv.overlayidToRepostore overlayId with
    | some repostoreId =>
      rw [(localRepostore_cached hcached).1]
      decide
    | none =>
      obtain ⟨later, hlater, hrequests⟩ := requests_localRepostore_new (E := E) (f := f) hcached
      rw [hrequests]
      obtain rfl | rfl | rfl := hlater <;> decide

open TwoUsers in
/-- The first access to an overlay of a core broker. -/
theorem not_locks_disciplined : ¬ ∀ (E : Env) (sv : BrokerServer) (overlayId : OverlayId) (α : Type)
    (f : StoreM ClockedStore (RepoResult α)),
    ∀ r ∈ (final (getRepostoreFromOverlayId E overlayId f ⟨sv, [], []⟩)).requests,
    Disciplined r := by
  intro h
  have hfacts : (after [join alice, add alice]).map
    (fun sv => (sv.mode, decide (.overlay overlay ∈ sv.repoStores),
      decide ((RepoStoreInfo.record (.overlay overlay)).Exists sv.store),
      (runOn (RepoStoreInfo.key (.overlay overlay)) sv.store).1.toOption)) =
    some (.coreMode, false, true, some ⟨env.randomBuf⟩) := by decide +kernel
  obtain ⟨sv, -, hfacts⟩ := Option.map_eq_some_iff.mp hfacts
  simp only [Prod.mk.injEq, decide_eq_true_eq, decide_eq_false_iff_not] at hfacts
  obtain ⟨hmode, hclosed, hexists, hkey⟩ := hfacts
  have hopens : Opens env sv (.overlay overlay) := by
    refine ⟨hexists, ⟨env.randomBuf⟩, Prod.ext ?_ (Record.runOn_property_state _), rfl, rfl⟩
    cases hres : (runOn (RepoStoreInfo.key (.overlay overlay)) sv.store).1 with
    | error e =>
      rw [hres] at hkey
      cases hkey
    | ok key =>
      rw [hres] at hkey
      exact congrArg Except.ok (Option.some.inj hkey)
  have hcall := h env sv overlay Unit (pure (some (.ok ())))
  rw [getRepostoreFromOverlayId_core hmode, requests_scope, coreRepostore_eq, if_neg hclosed,
    requests_openOrCreateRepostore hopens] at hcall
  exact absurd (hcall (writing .repoStores [⟨.repoStores, .read⟩]) (by simp)) (by decide)

end LockedM

end Lofire
