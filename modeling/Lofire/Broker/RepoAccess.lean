import Lofire.Broker.Server

/-!
# Requests on a repo store

An operation that `get_repostore_from_overlay_id` has run on a repo store, and that returned `Ok`,
has changed that repo store as its run says, and no other.
-/

namespace Lofire

namespace BrokerServer

variable {E : Env} {α β : Type} {sv sv' : BrokerServer}

/-- The operation `x` in the state `sv`. -/
def serve (sv : BrokerServer) (x : ServerM α) : Option (Except ProtocolError α × BrokerServer) :=
  x.run.run sv

theorem serve_bind_eq (x : ServerM α) (f : α → ServerM β) : sv.serve (x >>= f) =
    match sv.serve x with
    | some (.ok a, sv₁) => sv₁.serve (f a)
    | some (.error e, sv₁) => some (.error e, sv₁)
    | none => none := by
  simp only [serve, ExceptT.run_bind, StateT.run_bind]
  generalize x.run.run sv = out
  obtain _ | ⟨_ | _, sv₁⟩ := out <;> rfl

theorem serve_bind_of_ok {x : ServerM α} {a : α} (h : sv.serve x = some (.ok a, sv'))
    (f : α → ServerM β) : sv.serve (x >>= f) = sv'.serve (f a) := by
  rw [serve_bind_eq, h]

theorem serve_bind {x : ServerM α} {f : α → ServerM β} {res : Except ProtocolError β}
    (h : sv.serve (x >>= f) = some (res, sv')) :
    (∃ a sv₁, sv.serve x = some (.ok a, sv₁) ∧ sv₁.serve (f a) = some (res, sv')) ∨
      ∃ e, res = .error e ∧ sv.serve x = some (.error e, sv') := by
  rw [serve_bind_eq] at h
  obtain hx | ⟨⟨e | a, sv₁⟩, hx⟩ := Option.eq_none_or_eq_some (sv.serve x)
  · rw [hx] at h
    cases h
  · rw [hx] at h
    cases h
    exact .inr ⟨e, rfl, hx⟩
  · rw [hx] at h
    exact .inl ⟨a, sv₁, hx, h⟩

theorem serve_bind_ok {x : ServerM α} {f : α → ServerM β} {b : β}
    (h : sv.serve (x >>= f) = some (.ok b, sv')) :
    ∃ a sv₁, sv.serve x = some (.ok a, sv₁) ∧ sv₁.serve (f a) = some (.ok b, sv') := by
  obtain h | ⟨e, he, -⟩ := serve_bind h
  · exact h
  · cases he

theorem serve_throw (e : ProtocolError) :
    sv.serve (throw e : ServerM α) = some (.error e, sv) := rfl

theorem serve_modify (g : BrokerServer → BrokerServer) :
    sv.serve (modify g : ServerM PUnit) = some (.ok ⟨⟩, g sv) := rfl

theorem serve_hang : sv.serve (hang : ServerM α) = none := rfl

theorem serve_records_def (x : ServerProg α) : sv.serve (records x) =
    (match x.run.run.run LmdbBrokerStore.exec sv.store with
      | (some res, store) => some (res, { sv with store })
      | (none, _) => none) := rfl

theorem serve_onRepoStore_eq (f : StoreM ClockedStore (RepoResult α)) (id : RepoStoreId) :
    sv.serve (onRepoStore E f id) =
      (match f ⟨sv.disk id, E.clock⟩ with
        | .ok (some res) c => some (res, { sv with disk := Function.update sv.disk id c.store })
        | _ => none) := rfl

/-- The programs on the records leave the repo stores alone. -/
theorem serve_records {x : ServerProg α} {res : Except ProtocolError α}
    (h : sv.serve (records x) = some (res, sv')) : sv' = { sv with store := sv'.store } := by
  rw [serve_records_def] at h
  split at h
  · cases h
    rfl
  · cases h

theorem serve_onRepoStore {f : StoreM ClockedStore (RepoResult α)} {id : RepoStoreId}
    {res : Except ProtocolError α} (h : sv.serve (onRepoStore E f id) = some (res, sv')) :
    ∃ c, f ⟨sv.disk id, E.clock⟩ = .ok (some res) c ∧
      sv' = { sv with disk := Function.update sv.disk id c.store } := by
  rw [serve_onRepoStore_eq] at h
  split at h
  · rename_i res c hrun
    simp only [Option.some.injEq, Prod.mk.injEq] at h
    obtain ⟨rfl, rfl⟩ := h
    exact ⟨c, hrun, rfl⟩
  · cases h

theorem serve_onRepoStore_run {f : StoreM ClockedStore (RepoResult α)} {id : RepoStoreId}
    {res : Except ProtocolError α} {c : ClockedStore}
    (h : f ⟨sv.disk id, E.clock⟩ = .ok (some res) c) :
    sv.serve (onRepoStore E f id) =
      some (res, { sv with disk := Function.update sv.disk id c.store }) := by
  rw [serve_onRepoStore_eq, h]

/-! ## Which repo store -/

section

variable (E)

/-- What `openOrCreateRepostore` does before it runs the operation. -/
def openRepostore (readLocked : Bool) (repostoreId : RepoStoreId) : ServerM Unit := do
  let key ← records do
    match ← ServerProg.result (RepoStoreInfo.openId repostoreId) with
    | .error _ => throw (.ofBrokerError .overlayNotFound)
    | .ok () => ServerProg.ofStore (RepoStoreInfo.key repostoreId)
  if !E.createDirAll repostoreId then throw .writeError
  else if !E.canOpen repostoreId key || readLocked then hang
  else modify fun sv => { sv with repoStores := insert repostoreId sv.repoStores }

/-- The repo store on which `getRepostoreFromOverlayId` runs the operation. -/
def resolveRepostore (overlayId : OverlayId) : ServerM RepoStoreId := do
  let sv ← getThe BrokerServer
  match sv.mode with
  | .coreMode =>
    if .overlay overlayId ∈ sv.repoStores then return .overlay overlayId
    else
      openRepostore E true (.overlay overlayId)
      return .overlay overlayId
  | .localMode =>
    match sv.overlayidToRepostore overlayId with
    | some repostoreId =>
      if repostoreId ∈ sv.repoStores then return repostoreId else throw .brokerError
    | none =>
      let repoId ← records (ServerProg.ofStore do
        Overlay.openId overlayId
        Overlay.repo overlayId)
      modify fun sv => { sv with
        overlayidToRepostore := Function.update sv.overlayidToRepostore overlayId
          (some (.repo repoId)) }
      openRepostore E false (.repo repoId)
      return .repo repoId

theorem openOrCreateRepostore_eq (readLocked : Bool) (repostoreId : RepoStoreId)
    (f : StoreM ClockedStore (RepoResult α)) :
    openOrCreateRepostore E readLocked repostoreId f =
      openRepostore E readLocked repostoreId >>= fun _ => onRepoStore E f repostoreId := by
  unfold openOrCreateRepostore openRepostore
  rw [bind_assoc]
  congr 1
  funext key
  split
  · rfl
  · split
    · rfl
    · rfl

theorem getRepostoreFromOverlayId_eq (overlayId : OverlayId)
    (f : StoreM ClockedStore (RepoResult α)) :
    getRepostoreFromOverlayId E overlayId f = resolveRepostore E overlayId >>= onRepoStore E f := by
  unfold getRepostoreFromOverlayId resolveRepostore
  rw [bind_assoc]
  congr 1
  funext sv
  generalize sv.mode = mode, sv.overlayidToRepostore overlayId = cached
  cases mode with
  | coreMode =>
    dsimp only
    split
    · rw [pure_bind]
    · rw [openOrCreateRepostore_eq, bind_assoc]
      simp only [pure_bind]
  | localMode =>
    cases cached with
    | some repostoreId =>
      dsimp only
      split
      · rw [pure_bind]
      · rfl
    | none => simp only [openOrCreateRepostore_eq, bind_assoc, pure_bind]

end

/-- `f` has run on the repo store `id`. -/
def RanOn (E : Env) (f : StoreM ClockedStore (RepoResult α)) (id : RepoStoreId)
    (sv sv' : BrokerServer) (a : α) : Prop :=
  ∃ c, f ⟨sv.disk id, E.clock⟩ = .ok (some (.ok a)) c ∧
    sv'.disk = Function.update sv.disk id c.store

/-- The repo store of an overlay, if it is known without looking into the records. -/
def repoStoreOf (sv : BrokerServer) (overlay : OverlayId) : Option RepoStoreId :=
  match sv.mode with
  | .coreMode => some (.overlay overlay)
  | .localMode => sv.overlayidToRepostore overlay

/-- The overlay resolves to an open repo store. -/
structure Resolves (sv : BrokerServer) (overlay : OverlayId) (id : RepoStoreId) : Prop where
  repoStoreOf_eq : sv.repoStoreOf overlay = some id
  isOpen : id ∈ sv.repoStores

theorem serve_openOrCreateRepostore {readLocked : Bool} {f : StoreM ClockedStore (RepoResult α)}
    {id : RepoStoreId} {a : α}
    (h : sv.serve (openOrCreateRepostore E readLocked id f) = some (.ok a, sv')) :
    RanOn E f id sv sv' a ∧ id ∈ sv'.repoStores ∧
      ∀ overlay, sv'.repoStoreOf overlay = sv.repoStoreOf overlay := by
  obtain ⟨key, sv₁, hrecords, h⟩ := serve_bind_ok h
  have hsv₁ := serve_records hrecords
  split at h
  · rw [serve_throw] at h
    cases h
  · split at h
    · rw [serve_hang] at h
      cases h
    · obtain ⟨_, sv₂, hmodify, h⟩ := serve_bind_ok h
      rw [serve_modify] at hmodify
      cases hmodify
      obtain ⟨c, hrun, rfl⟩ := serve_onRepoStore h
      rw [hsv₁] at hrun ⊢
      exact ⟨⟨c, hrun, rfl⟩, Finset.mem_insert_self _ _, fun _ => rfl⟩

/-- The request has run its operation on the repo store of the overlay, which is open now. -/
theorem serve_getRepostoreFromOverlayId {f : StoreM ClockedStore (RepoResult α)}
    {overlay : OverlayId} {a : α}
    (h : sv.serve (getRepostoreFromOverlayId E overlay f) = some (.ok a, sv')) :
    ∃ id, sv'.Resolves overlay id ∧ (∀ id₀, sv.repoStoreOf overlay = some id₀ → id₀ = id) ∧
      RanOn E f id sv sv' a := by
  obtain ⟨sv₀, sv₁, hget, h⟩ := serve_bind_ok h
  cases hget
  split at h
  · rename_i hmode
    have hstore : sv.repoStoreOf overlay = some (.overlay overlay) := by
      unfold repoStoreOf
      rw [hmode]
    have hknown : ∀ id₀, sv.repoStoreOf overlay = some id₀ → id₀ = .overlay overlay := fun id₀ h =>
      Option.some.inj (h.symm.trans hstore)
    split at h
    · rename_i hopen
      obtain ⟨c, hrun, rfl⟩ := serve_onRepoStore h
      exact ⟨_, ⟨hstore, hopen⟩, hknown, c, hrun, rfl⟩
    · obtain ⟨hran, hopen, hsame⟩ := serve_openOrCreateRepostore h
      exact ⟨_, ⟨(hsame overlay).trans hstore, hopen⟩, hknown, hran⟩
  · rename_i hmode
    split at h
    · rename_i repostoreId hcached
      have hstore : sv.repoStoreOf overlay = some repostoreId := by
        unfold repoStoreOf
        rw [hmode]
        exact hcached
      split at h
      · rename_i hopen
        obtain ⟨c, hrun, rfl⟩ := serve_onRepoStore h
        exact ⟨_, ⟨hstore, hopen⟩, fun id₀ h => Option.some.inj (h.symm.trans hstore), c, hrun, rfl⟩
      · cases h
    · rename_i hcached
      have hstore : sv.repoStoreOf overlay = none := by
        unfold repoStoreOf
        rw [hmode]
        exact hcached
      obtain ⟨repoId, sv₂, hrecords, h⟩ := serve_bind_ok h
      have hsv₂ := serve_records hrecords
      obtain ⟨_, sv₃, hmodify, h⟩ := serve_bind_ok h
      rw [serve_modify] at hmodify
      cases hmodify
      obtain ⟨⟨c, hrun, hdisk⟩, hopen, hsame⟩ := serve_openOrCreateRepostore h
      rw [hsv₂] at hrun hdisk
      refine ⟨.repo repoId, ⟨(hsame overlay).trans ?_, hopen⟩, ?_, c, hrun, hdisk⟩
      · have hmode₂ : sv₂.mode = .localMode := by rw [hsv₂]; exact hmode
        simp only [repoStoreOf, hmode₂, Function.update_self]
      · intro id₀ hid₀
        rw [hstore] at hid₀
        cases hid₀

/-- A request on an overlay that resolves to an open repo store is served from that store. -/
theorem Resolves.serve_eq {f : StoreM ClockedStore (RepoResult α)} {overlay : OverlayId}
    {id : RepoStoreId} (h : sv.Resolves overlay id) :
    sv.serve (getRepostoreFromOverlayId E overlay f) = sv.serve (onRepoStore E f id) := by
  have hget : sv.serve (getRepostoreFromOverlayId E overlay f) = sv.serve (match sv.mode with
    | .coreMode =>
      if .overlay overlay ∈ sv.repoStores then onRepoStore E f (.overlay overlay)
      else openOrCreateRepostore E true (.overlay overlay) f
    | .localMode => match sv.overlayidToRepostore overlay with
      | some repostoreId =>
        if repostoreId ∈ sv.repoStores then onRepoStore E f repostoreId else throw .brokerError
      | none => do
        let repoId ← records (ServerProg.ofStore do
          Overlay.openId overlay
          Overlay.repo overlay)
        modify fun sv => { sv with
          overlayidToRepostore := Function.update sv.overlayidToRepostore overlay
            (some (.repo repoId)) }
        openOrCreateRepostore E false (.repo repoId) f) := rfl
  obtain ⟨hstore, hopen⟩ := h
  unfold repoStoreOf at hstore
  rw [hget]
  split at hstore
  · rw [Option.some.injEq] at hstore
    subst hstore
    rw [if_pos hopen]
  · rw [hstore]
    dsimp only
    rw [if_pos hopen]

/-- A core broker has the repo store of an overlay under the overlay's id. -/
theorem resolves_core {overlay : OverlayId} (hmode : sv.mode = .coreMode)
    (hopen : .overlay overlay ∈ sv.repoStores) : sv.Resolves overlay (.overlay overlay) := by
  refine ⟨?_, hopen⟩
  unfold repoStoreOf
  rw [hmode]

end BrokerServer

end Lofire
