import Lofire.Branch
import Lofire.Broker.Records
import Lofire.Lmdb.Clocked
import Lofire.Net.Wire

/-!
# Broker server (`lofire-broker/src/server.rs`)

The operations of `BrokerServer`. What an operation does to the broker's records is a program over
the trait `BrokerStore` (`ServerProg`), so that the requests of several users can interleave. What
it does to a repo store is an operation on `LmdbRepoStore`, run on the store that the overlay
resolves to.

An operation that does not return (a panic, a deadlock, or a load that reaches the bound `E.fuel`)
has the value `none`. A channel of blocks is the list of the blocks sent to it.
-/

namespace Lofire

open Lib

inductive BrokerError
  | cannotStart
  | mismatchedMode
  | overlayNotFound
  deriving DecidableEq

def ProtocolError.ofBrokerError : BrokerError → ProtocolError
  | .cannotStart => .overlayNotFound
  | .overlayNotFound => .overlayNotFound
  | _ => .brokerError

def BrokerError.ofStorageError : StorageError → BrokerError
  | .invalidValue => .mismatchedMode
  | _ => .cannotStart

/-! ## Programs on the records -/

/-- A program over the broker store that may fail with a `ProtocolError`, or panic. -/
abbrev ServerProg := ExceptT ProtocolError (OptionT BrokerProg)

namespace ServerProg

/-- `x?` for a `StorageError` -/
def ofStore {α : Type} (x : BrokerProgE α) : ServerProg α :=
  ExceptT.mk (OptionT.mk do return some ((← x.run).mapError ProtocolError.ofStorageError))

/-- The reply to `x`, its errors included. -/
def result {α : Type} (x : BrokerProgE α) : ServerProg (Except StorageError α) :=
  ExceptT.mk (OptionT.mk do return some (.ok (← x.run)))

def panic {α : Type} : ServerProg α := ExceptT.mk (OptionT.mk (pure none))

/-- `opt.unwrap()` -/
def unwrap {α : Type} : Option α → ServerProg α
  | some a => pure a
  | none => panic

end ServerProg

/-! ## The server -/

structure BrokerServer where
  store : LmdbBrokerStore
  mode : ConfigMode
  /-- The repo stores that are open. -/
  repoStores : Finset RepoStoreId
  /-- only used in `ConfigMode::Local` -/
  overlayidToRepostore : OverlayId → Option RepoStoreId
  /-- The content of the repo stores, open or not. -/
  disk : RepoStoreId → LmdbRepoStore

/-- What the outside world answers during a request. -/
structure Env where
  /-- `now_timestamp()` when an overlay is created -/
  now : Timestamp
  /-- the readings of `now_timestamp()` in the repo store -/
  clock : Nat → Timestamp
  /-- `getrandom` -/
  randomBuf : Vector UInt8 32
  /-- `create_dir_all(path)` succeeds. -/
  createDirAll : RepoStoreId → Bool
  /-- `LmdbRepoStore::open(path, key)` does not panic. -/
  canOpen : RepoStoreId → SymKey → Bool
  /-- LMDB's answer to `APPEND_DUP` -/
  appendDup : Finset BlockId → BlockId → Bool
  /-- the bound on the recursion of a load -/
  fuel : Nat
  /-- the iteration order of the sets of commits -/
  order : HashOrder ObjectId

/-- An operation of the server. -/
abbrev ServerM := ExceptT ProtocolError (StateT BrokerServer Option)

/-- The result of an operation on a repo store that may fail with a `ProtocolError`, or not
return. -/
abbrev RepoResult (α : Type) := Option (Except ProtocolError α)

namespace BrokerServer

section

variable (P : Primitives) (W : Wire) (E : Env) {α : Type}

/-- Run a program on the broker store. -/
def records (x : ServerProg α) : ServerM α := ExceptT.mk fun sv =>
  match (x.run.run.run LmdbBrokerStore.exec sv.store) with
  | (some res, store) => some (res, { sv with store })
  | (none, _) => none

/-- The mode of the broker, which is the one it was created with. -/
def configMode (mode : ConfigMode) : OptionT BrokerProg (Except StorageError ConfigMode) := do
  match ← Config.getOrCreate mode with
  | .error e => return .error e
  | .ok () => liftM (m := BrokerProg) Config.mode.run

/-- `BrokerServer::new`, with the content of the repo stores -/
def new (store : LmdbBrokerStore) (mode : ConfigMode) (disk : RepoStoreId → LmdbRepoStore) :
    Option (Except BrokerError BrokerServer) :=
  match (configMode mode).run.run LmdbBrokerStore.exec store with
  | (some (.ok mode), store) => some (.ok ⟨store, mode, ∅, fun _ => none, disk⟩)
  | (some (.error e), _) => some (.error (.ofStorageError e))
  | (none, _) => none

/-- The operation does not return. -/
def hang : ServerM α := ExceptT.mk fun _ => none

/-! ### Repo stores -/

/-- Run an operation on an open repo store. -/
def onRepoStore (f : StoreM ClockedStore (RepoResult α)) (id : RepoStoreId) :
    ServerM α := ExceptT.mk fun sv =>
  match f ⟨sv.disk id, E.clock⟩ with
  | .ok (some res) c => some (res, { sv with disk := Function.update sv.disk id c.store })
  | _ => none

/-- The write lock of `repo_stores` is never granted when the caller holds its read lock. -/
def openOrCreateRepostore (readLocked : Bool) (repostoreId : RepoStoreId)
    (f : StoreM ClockedStore (RepoResult α)) :
    ServerM α := do
  -- first let's find it in the BrokerStore.repostoreinfo table in order to get the encryption key
  let key ← records do
    match ← ServerProg.result (RepoStoreInfo.openId repostoreId) with
    | .error _ => throw (.ofBrokerError .overlayNotFound)
    | .ok () => ServerProg.ofStore (RepoStoreInfo.key repostoreId)
  if !E.createDirAll repostoreId then throw .writeError
  else if !E.canOpen repostoreId key || readLocked then hang
  else
    modify fun sv => { sv with repoStores := insert repostoreId sv.repoStores }
    onRepoStore E f repostoreId

def getRepostoreFromOverlayId (overlayId : OverlayId)
    (f : StoreM ClockedStore (RepoResult α)) : ServerM α := do
  let sv ← getThe BrokerServer
  match sv.mode with
  | .coreMode =>
    if .overlay overlayId ∈ sv.repoStores then onRepoStore E f (.overlay overlayId)
    else
      -- the guard `reader` lives until the call returns
      openOrCreateRepostore E true (.overlay overlayId) f
  | .localMode =>
    match sv.overlayidToRepostore overlayId with
    | some repostoreId =>
      if repostoreId ∈ sv.repoStores then onRepoStore E f repostoreId else throw .brokerError
    | none =>
      -- first let's find it in the BrokerStore.overlay table to retrieve its repo_pubkey
      let repoId ← records (ServerProg.ofStore do
        Overlay.openId overlayId
        Overlay.repo overlayId)
      modify fun sv => { sv with
        overlayidToRepostore := Function.update sv.overlayidToRepostore overlayId
          (some (.repo repoId)) }
      openOrCreateRepostore E false (.repo repoId) f

/-! ### Operations on objects -/

/-- Load an object and run `op` on each of its blocks, once for each id. -/
def onBlocks (op : BlockId → StoreM ClockedStore (Except StorageError α)) (id : ObjectId) :
    StoreM ClockedStore (RepoResult Unit) := do
  match ← Object.load P (ClockedStore.get P E.appendDup) E.fuel id none with
  | none => return none
  | some (.error _) => return some (.error .notFound)
  | some (.ok o) =>
    let res ← Object.forDistinct P (fun block => do return (← op (block.id P)).map fun _ => ())
      o.blocks []
    return some (res.mapError .ofStorageError)

def delObject (overlay : OverlayId) (id : ObjectId) : ServerM Unit :=
  getRepostoreFromOverlayId E overlay (onBlocks P E (ClockedStore.del P) id)

def pinObject (overlay : OverlayId) (id : ObjectId) : ServerM Unit :=
  getRepostoreFromOverlayId E overlay (onBlocks P E (ClockedStore.pin E.appendDup) id)

def unpinObject (overlay : OverlayId) (id : ObjectId) : ServerM Unit :=
  getRepostoreFromOverlayId E overlay (onBlocks P E (ClockedStore.unpin E.appendDup) id)

def putBlock (overlay : OverlayId) (block : Block) : ServerM Unit :=
  getRepostoreFromOverlayId E overlay do
    let res ← ClockedStore.put P block
    return some ((res.map fun _ => ()).mapError .ofStorageError)

/-- The blocks that a request has sent; `deduplicated` are their ids. -/
structure Sent where
  blocks : List Block
  deduplicated : Finset BlockId

/-- Send the blocks of an object that have not been sent. -/
def sendBlocks : List Block → Sent → Sent
  | [], sent => sent
  | block :: blocks, sent =>
    if block.id P ∈ sent.deduplicated then sendBlocks blocks sent
    else sendBlocks blocks ⟨sent.blocks ++ [block], insert (block.id P) sent.deduplicated⟩

def getBlock (overlay : OverlayId) (id : BlockId) (includeChildren : Bool) :
    ServerM (List Block) :=
  getRepostoreFromOverlayId E overlay <|
    if !includeChildren then do
      let res ← ClockedStore.get P E.appendDup id
      return some ((res.map fun block => [block]).mapError .ofStorageError)
    else do
      match ← Object.load P (ClockedStore.get P E.appendDup) E.fuel id none with
      | none => return none
      | some (.error _) => return some (.error .notFound)
      | some (.ok o) => return some (.ok (sendBlocks P o.blocks ⟨[], ∅⟩).blocks)

/-- The loop of `sync_branch` over the commits to send. -/
def sendObjects : List ObjectId → Sent → StoreM ClockedStore (RepoResult (List Block))
  | [], sent => return some (.ok sent.blocks)
  | objectid :: ids, sent => do
    match ← Object.load P (ClockedStore.get P E.appendDup) E.fuel objectid none with
    | none => return none
    | some (.error e) => return some (.error (.ofObjectParseError e))
    | some (.ok object) => sendObjects ids (sendBlocks P object.blocks sent)

def syncBranch (overlay : OverlayId) (heads knownHeads : List ObjectId)
    (knownCommits : BloomFilter) : ServerM (List Block) :=
  getRepostoreFromOverlayId E overlay do
    match ← Branch.syncReq P E.order (ClockedStore.get P E.appendDup) E.fuel heads knownHeads
        knownCommits with
    | none => return none
    | some (.error _) => return some (.error .objectParseError)
    | some (.ok res) => sendObjects P E res ⟨[], ∅⟩

/-! ### Users and overlays -/

def addUser (adminUser userId : PubKey) (sig : Sig) : ServerM Unit := do
  -- verify signature
  match W.verify (W.addUserContent.toVec userId) sig adminUser with
  | .error e => throw (.ofLofireError e)
  | .ok () =>
    records do
      -- check user_id is not already present
      match ← ServerProg.result (Account.openId userId) with
      | .ok () => throw .userAlreadyExists
      -- if not, add to store
      | .error _ => ServerProg.ofStore (Account.create userId false)

def delUser (_adminUser _userId : PubKey) (_sig : Sig) : ServerM Unit := return

def addClient (_user _clientId : PubKey) (_sig : Sig) : ServerM Unit := return

def delClient (_user _clientId : PubKey) (_sig : Sig) : ServerM Unit := return

def connectOverlay (_user : PubKey) (_overlay : OverlayId) : ServerM Unit := throw .overlayNotJoined

/-- `None` is an `unwrap` that panics. -/
def computeRepostoreId (mode : ConfigMode) (overlay : OverlayId) (repoId : Option PubKey) :
    Option RepoStoreId :=
  match mode with
  | .coreMode => some (.overlay overlay)
  | .localMode => repoId.map .repo

/-- Add the overlay and an encryption key for its repo store. -/
def createOverlay (mode : ConfigMode) (overlayId : OverlayId) (repoId : Option PubKey)
    (secret : SymKey) : ServerProg Unit := do
  if mode = .localMode ∧ repoId = none then throw .repoIdRequired
  ServerProg.ofStore (Overlay.create overlayId secret
    (if mode = .localMode then repoId else none) E.now)
  let key : SymKey := ⟨E.randomBuf⟩
  let repostoreId ← ServerProg.unwrap (computeRepostoreId mode overlayId repoId)
  ServerProg.ofStore (RepoStoreInfo.create repostoreId key)

/-- Add the peers to the overlay. -/
def addPeers (overlayId : OverlayId) : List PeerAdvert → BrokerProgE Unit
  | [] => return
  | advert :: peers => do
    Peer.updateOrCreate advert
    Overlay.addPeer overlayId advert.peer
    addPeers overlayId peers

/-- The calls of the broker store that `join_overlay` makes. -/
def joinOverlayProg (mode : ConfigMode) (user : PubKey) (overlayId : OverlayId)
    (repoId : Option PubKey) (secret : SymKey) (peers : List PeerAdvert) : ServerProg Unit := do
  -- check if this overlay already exists
  match ← ServerProg.result (Overlay.openId overlayId) with
  | .error .notFound => createOverlay E mode overlayId repoId secret
  | .error e => throw (.ofStorageError e)
  | .ok () => pure ()
  ServerProg.ofStore do
    addPeers overlayId peers
    -- now adding the overlay_id to the account
    Account.openId user
    Account.addOverlay user overlayId

def joinOverlay (user : PubKey) (overlayId : OverlayId) (repoId : Option PubKey)
    (secret : SymKey) (peers : List PeerAdvert) : ServerM Unit := do
  let sv ← getThe BrokerServer
  records (joinOverlayProg E sv.mode user overlayId repoId secret peers)

end

end BrokerServer

end Lofire
