import Lofire.Lib.MultiMap
import Lofire.Lib.Prog
import Lofire.Store

/-!
# Store of the broker's records

`lofire/src/brokerstore.rs`, `lofire-store-lmdb/src/brokerstore.rs`.

The trait `BrokerStore` as calls, and their effect on `LmdbBrokerStore`: a property has any number
of values, `put` adds one, and each call is one transaction. The code of the records is written as
programs that make such calls, which may fail with a `StorageError`.
-/

namespace Lofire

open Lib

/-- A call of the trait `BrokerStore`. -/
inductive BrokerCall
  | get (pre : UInt8) (key : Bytes) (suffix : Option UInt8)
  | getAll (pre : UInt8) (key : Bytes) (suffix : Option UInt8)
  | hasPropertyValue (pre : UInt8) (key : Bytes) (suffix : Option UInt8) (value : Bytes)
  | put (pre : UInt8) (key : Bytes) (suffix : Option UInt8) (value : Bytes)
  | replace (pre : UInt8) (key : Bytes) (suffix : Option UInt8) (value : Bytes)
  | del (pre : UInt8) (key : Bytes) (suffix : Option UInt8)
  | delPropertyValue (pre : UInt8) (key : Bytes) (suffix : Option UInt8) (value : Bytes)
  deriving DecidableEq

/-- The type of the reply to a call. -/
def BrokerCall.Reply : BrokerCall → Type
  | .get .. => Except StorageError Bytes
  | .getAll .. => Except StorageError (List Bytes)
  | _ => Except StorageError Unit

abbrev brokerStore : Signature := ⟨BrokerCall, BrokerCall.Reply⟩

/-- The values of every property. -/
abbrev LmdbBrokerStore := MultiMap Bytes Bytes

namespace LmdbBrokerStore

def computeProperty (pre : UInt8) (key : Bytes) (suffix : Option UInt8) : Bytes :=
  pre :: (key ++ suffix.toList)

/-- Remove all the values of a property. -/
def deleteAll (property : Bytes) (s : LmdbBrokerStore) : LmdbBrokerStore :=
  s.filter fun p => p.1 ≠ property

/-- `delete_all(..).map_err(..)`: deleting a property without values is an error. -/
def del (property : Bytes) (s : LmdbBrokerStore) : Except StorageError LmdbBrokerStore :=
  if s.values property = ∅ then .error .backendError else .ok (s.deleteAll property)

/-- A write transaction: nothing is written if it fails. -/
def write (res : Except StorageError LmdbBrokerStore) (s : LmdbBrokerStore) :
    Except StorageError Unit × LmdbBrokerStore :=
  match res with
  | .ok s' => (.ok (), s')
  | .error e => (.error e, s)

/-- `impl BrokerStore for LmdbBrokerStore` -/
def exec : (c : BrokerCall) → LmdbBrokerStore → c.Reply × LmdbBrokerStore
  | .get pre key suffix, s =>
    (match s.first (computeProperty pre key suffix) with
      | some value => .ok value
      | none => .error .notFound, s)
  | .getAll pre key suffix, s => (.ok ((s.values (computeProperty pre key suffix)).sort (· ≤ ·)), s)
  | .hasPropertyValue pre key suffix value, s =>
    (if (computeProperty pre key suffix, value) ∈ s then .ok () else .error .notFound, s)
  | .put pre key suffix value, s => (.ok (), insert (computeProperty pre key suffix, value) s)
  | .replace pre key suffix value, s =>
    write ((del (computeProperty pre key suffix) s).map
      (insert (computeProperty pre key suffix, value))) s
  | .del pre key suffix, s => write (del (computeProperty pre key suffix) s) s
  | .delPropertyValue pre key suffix value, s =>
    write (if (computeProperty pre key suffix, value) ∈ s then
      .ok (s.erase (computeProperty pre key suffix, value)) else .error .backendError) s

end LmdbBrokerStore

/-! ## Programs -/

/-- A program over the trait `BrokerStore`. -/
abbrev BrokerProg := Prog brokerStore

/-- A program that may fail. -/
abbrev BrokerProgE := ExceptT StorageError BrokerProg

namespace BrokerStore

def get (pre : UInt8) (key : Bytes) (suffix : Option UInt8) : BrokerProgE Bytes :=
  ExceptT.mk (Prog.perform (S := brokerStore) (.get pre key suffix))

def put (pre : UInt8) (key : Bytes) (suffix : Option UInt8) (value : Bytes) : BrokerProgE Unit :=
  ExceptT.mk (Prog.perform (S := brokerStore) (.put pre key suffix value))

def replace (pre : UInt8) (key : Bytes) (suffix : Option UInt8) (value : Bytes) :
    BrokerProgE Unit :=
  ExceptT.mk (Prog.perform (S := brokerStore) (.replace pre key suffix value))

def hasPropertyValue (pre : UInt8) (key : Bytes) (suffix : Option UInt8) (value : Bytes) :
    BrokerProgE Unit :=
  ExceptT.mk (Prog.perform (S := brokerStore) (.hasPropertyValue pre key suffix value))

def del (pre : UInt8) (key : Bytes) (suffix : Option UInt8) : BrokerProgE Unit :=
  ExceptT.mk (Prog.perform (S := brokerStore) (.del pre key suffix))

def delPropertyValue (pre : UInt8) (key : Bytes) (suffix : Option UInt8) (value : Bytes) :
    BrokerProgE Unit :=
  ExceptT.mk (Prog.perform (S := brokerStore) (.delPropertyValue pre key suffix value))

/-- The loop of `delAll`. -/
def delEach (pre : UInt8) (key : Bytes) : List UInt8 → BrokerProgE Unit
  | [] => return
  | suffix :: suffixes => do
    del pre key (some suffix)
    delEach pre key suffixes

/-- Delete all properties of a key from the store. -/
def delAll (pre : UInt8) (key : Bytes) (allSuffixes : List UInt8) : BrokerProgE Unit := do
  delEach pre key allSuffixes
  if allSuffixes.isEmpty then del pre key none

/-- `store.get(..).is_ok()` -/
def isOk {α : Type} (x : BrokerProgE α) : BrokerProg Bool := do
  match ← x.run with
  | .ok _ => return true
  | .error _ => return false

end BrokerStore

end Lofire
