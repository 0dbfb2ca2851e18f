import Lofire.Lib.MultiMap
import Lofire.Store

/-!
# Block store on LMDB (`lofire-store-lmdb/src/repostore.rs`)

The four tables of `LmdbRepoStore` and its operations. Blocks are stored serialized. A `BlockMeta`
never leaves the store and is kept decoded.

A write transaction is a function from the tables to a result and the new tables, or to a panic. A
panic drops the writer, so that nothing of the transaction remains (`write`). `get` reads in one
transaction and records the use of the block in another one.

`appendDup` is LMDB's answer to a put with the flag `APPEND_DUP`: whether it accepts the new value
next to the values that the key has. Clock readings are arguments.
-/

namespace Lofire

open Lib

structure BlockMeta where
  pin : Bool
  lastUsed : Timestamp
  synced : Bool
  deriving DecidableEq

structure LmdbRepoStore where
  /-- the main store where all the repo blocks are stored -/
  mainStore : BlockId → Option Bytes
  /-- store for the pin boolean, recently_used timestamp, and synced boolean -/
  metaStore : BlockId → Option BlockMeta
  /-- store for the expiry timestamp -/
  expiryStore : MultiMap Timestamp BlockId
  /-- store for the LRU list -/
  recentlyUsedStore : MultiMap Timestamp BlockId

namespace LmdbRepoStore

/-! ## Puts and deletes of single entries -/

section Entries

variable (s : LmdbRepoStore) (id : BlockId) (t : Timestamp)

def putMain (blockSer : Bytes) : LmdbRepoStore :=
  { s with mainStore := Function.update s.mainStore id (some blockSer) }

def deleteMain : LmdbRepoStore := { s with mainStore := Function.update s.mainStore id none }

def putMeta (m : BlockMeta) : LmdbRepoStore :=
  { s with metaStore := Function.update s.metaStore id (some m) }

def deleteMeta : LmdbRepoStore := { s with metaStore := Function.update s.metaStore id none }

def putExpiry : LmdbRepoStore := { s with expiryStore := insert (t, id) s.expiryStore }

def deleteExpiry : LmdbRepoStore := { s with expiryStore := s.expiryStore.erase (t, id) }

def putLru : LmdbRepoStore := { s with recentlyUsedStore := insert (t, id) s.recentlyUsedStore }

def deleteLru : LmdbRepoStore :=
  { s with recentlyUsedStore := s.recentlyUsedStore.erase (t, id) }

end Entries

/-- What LMDB documents of `APPEND_DUP`: a value is accepted after all the values of its key. -/
def appendAfter (dups : Finset BlockId) (id : BlockId) : Bool := decide (∀ d ∈ dups, d < id)

/-- The store as `open` creates it. -/
def empty : LmdbRepoStore := ⟨fun _ => none, fun _ => none, ∅, ∅⟩

/-! ## Transactions -/

/-- A write transaction: it is committed at its end, and a panic leaves the store as it was. -/
def write {α : Type} (txn : LmdbRepoStore → Except Panic (α × LmdbRepoStore)) :
    StoreM LmdbRepoStore α := fun s =>
  match txn s with
  | .ok (a, s') => .ok a s'
  | .error p => .error p s

/-- `remove_from_lru(..).unwrap()`: deleting an absent pair is an error. -/
def removeFromLru (id : BlockId) (time : Timestamp) (s : LmdbRepoStore) :
    Except Panic LmdbRepoStore :=
  if (time, id) ∈ s.recentlyUsedStore then .ok (s.deleteLru id time) else .error .unwrap

section

variable (P : Primitives) (appendDup : Finset BlockId → BlockId → Bool)

/-- `add_to_lru(..).unwrap()` -/
def addToLru (id : BlockId) (time : Timestamp) (s : LmdbRepoStore) : Except Panic LmdbRepoStore :=
  if appendDup (s.recentlyUsedStore.values time) id then .ok (s.putLru id time) else .error .unwrap

/-! ## The trait `RepoStore` -/

/-- The write transaction of `get`, with the meta that the read transaction has found. -/
def recordUse (now : Timestamp) (id : BlockId) (m : BlockMeta) (s : LmdbRepoStore) :
    Except Panic LmdbRepoStore := do
  -- we remove the previous timestamp and add an entry with now
  let s ← (if m.pin then .ok s else removeFromLru id m.lastUsed s >>= addToLru appendDup id now)
  return s.putMeta id { m with lastUsed := now }

/-- The end of `get`: the block is decoded and its id checked. -/
def checkBlock (id : BlockId) (blockSer : Bytes) : Except Panic (Except StorageError Block) :=
  match Block.fromSlice P blockSer with
  | none => .ok (.error .invalidValue)
  | some o => if o.id P ≠ id then .error .corruptionOfData else .ok (.ok o)

/-- What the read transaction of `get` finds to be recorded: the meta of a synced block. -/
def useToRecord (id : BlockId) (s : LmdbRepoStore) : Option BlockMeta :=
  match s.mainStore id with
  | none => none
  | some _ => (s.metaStore id).filter BlockMeta.synced

/-- Retrieves a block from the storage backend. The use is committed before the block is checked. -/
def get (now : Timestamp) (id : BlockId) : StoreM LmdbRepoStore (Except StorageError Block) :=
  fun s =>
    match s.mainStore id with
    | none => .ok (.error .notFound) s
    | some blockSer =>
      match (match s.useToRecord id with
        | some m => recordUse appendDup now id m s
        | none => .ok s) with
      | .error p => .error p s
      | .ok s' =>
        match checkBlock P id blockSer with
        | .error p => .error p s'
        | .ok res => .ok res s'

/-- The transaction of `put`. -/
def putTxn (block : Block) (s : LmdbRepoStore) : LmdbRepoStore :=
  let s := s.putMain (block.id P) (block.toVec P)
  match block.expiry with
  | some expiry => s.putExpiry (block.id P) expiry
  | none => s

/-- Adds a block in the storage backend. Returns the BlockId of the Block. -/
def put (block : Block) : StoreM LmdbRepoStore (Except StorageError BlockId) :=
  write fun s => .ok (.ok (block.id P), putTxn P block s)

/-- The transaction of `del` once the block is found. -/
def delTxn (id : BlockId) (block : Block) (s : LmdbRepoStore) : Except Panic LmdbRepoStore := do
  let s ← (match s.metaStore id with
    | some m => do
      let s ← (if m.lastUsed ≠ 0 then removeFromLru id m.lastUsed s else .ok s)
      return s.deleteMeta id
    | none => .ok s)
  let s := s.deleteMain id
  match block.expiry with
  | some expiry =>
    if (expiry, id) ∈ s.expiryStore then .ok (s.deleteExpiry id expiry) else .error .unwrap
  | none => .ok s

/-- Removes the block from the storage backend. Returns it and the size that was reclaimed. -/
def del (id : BlockId) : StoreM LmdbRepoStore (Except StorageError (Block × Nat)) :=
  write fun s =>
    match s.mainStore id with
    | none => .ok (.error .notFound, s)
    | some slice =>
      match Block.fromSlice P slice with
      | none => .error .unwrap
      | some block => do return (.ok (block, slice.length), ← delTxn id block s)

/-! ## Pins, synchronisation and garbage collection -/

/-- The transaction of `set_pin`. -/
def setPinTxn (id : BlockId) (add : Bool) (s : LmdbRepoStore) : Except Panic LmdbRepoStore :=
  match s.metaStore id with
  | some m =>
    -- pinning while already pinned, or unpinning while already unpinned. NOP
    if add = m.pin then .ok s
    else do
      let s ← (if !m.synced then .ok s
        else if add then removeFromLru id m.lastUsed s
        else addToLru appendDup id m.lastUsed s)
      return s.putMeta id { m with pin := add }
  | none => if add then .ok (s.putMeta id ⟨true, 0, false⟩) else .ok s

/-- Sets the pin for that Object. if add is true, will add the pin. if false, will remove the
pin. -/
def setPin (id : BlockId) (add : Bool) : StoreM LmdbRepoStore (Except StorageError Unit) :=
  write fun s => do return (.ok (), ← setPinTxn appendDup id add s)

def pin (id : BlockId) : StoreM LmdbRepoStore (Except StorageError Unit) := setPin appendDup id true

def unpin (id : BlockId) : StoreM LmdbRepoStore (Except StorageError Unit) :=
  setPin appendDup id false

/-- The transaction of `has_been_synced`. -/
def hasBeenSyncedTxn (id : BlockId) (now : Timestamp) (s : LmdbRepoStore) :
    Except Panic LmdbRepoStore :=
  match s.metaStore id with
  | some m =>
    -- already synced. NOP
    if m.synced then .ok s
    else do
      let s ← (if m.pin then .ok s else addToLru appendDup id now s)
      return s.putMeta id { m with synced := true, lastUsed := now }
  | none => do
    let s ← addToLru appendDup id now s
    return s.putMeta id ⟨false, now, true⟩

/-- The broker calls this method when the block has been retrieved/synced by enough peers and it
can now be included in the LRU. -/
def hasBeenSynced (id : BlockId) (when? : Option Timestamp) (now : Timestamp) :
    StoreM LmdbRepoStore Unit :=
  write fun s => do return ((), ← hasBeenSyncedTxn appendDup id (when?.getD now) s)

/-- `self.del(&block_id).unwrap()` for a list of blocks. -/
def delAll : List BlockId → StoreM LmdbRepoStore Unit
  | [] => pure ()
  | id :: ids => do
    match ← del P id with
    | .ok _ => delAll ids
    | .error _ => throw .unwrap

/-- Removes all the blocks that have expired. -/
def removeExpired (now : Timestamp) : StoreM LmdbRepoStore Unit := do
  let s ← EStateM.get
  delAll P ((s.expiryStore.descendingFrom now).map Prod.snd)

/-- The loop of `removeLeastUsed`. -/
def delUntil (size : Nat) : List BlockId → Nat → StoreM LmdbRepoStore Nat
  | [], total => pure total
  | id :: ids, total => do
    match ← del P id with
    | .error _ => throw .unwrap
    | .ok (_, blockSize) =>
      if size ≤ total + blockSize then return total + blockSize
      else delUntil size ids (total + blockSize)

/-- Removes some blocks that haven't been used for a while, reclaiming some space on disk. -/
def removeLeastUsed (size : Nat) : StoreM LmdbRepoStore Nat := do
  let s ← EStateM.get
  delUntil P size (s.recentlyUsedStore.ascending.map Prod.snd) 0

end

end LmdbRepoStore

end Lofire
