import Lofire.Primitives

/-!
# Immutable blocks (`lofire/src/block.rs`)

A block caches its id. `Block.new` and the decoder leave the cache empty or correct, and so do
`setExpiry` and `setKey`: that is `Block.Valid`.
-/

namespace Lofire

namespace Block

variable (P : Primitives)

/-- Compute the ID -/
def getId (b : Block) : BlockId := P.blockId b.toBlockBody

/-- Get the already computed ID -/
def id (b : Block) : BlockId :=
  match b.id? with
  | some id => id
  | none => b.getId P

def new (children : List BlockId) (deps : ObjectDeps) (expiry : Option Timestamp)
    (content : Bytes) (key : Option SymKey) : Block :=
  let b : Block := { id? := none, key, children, deps, expiry, content }
  { b with id? := some (b.getId P) }

def setExpiry (b : Block) (expiry : Option Timestamp) : Block :=
  { b with id? := none, expiry }

def setKey (b : Block) (key : Option SymKey) : Block := { b with key }

/-- `serde_bare::from_slice::<Block>`: the skipped fields take their default. -/
def fromSlice (bytes : Bytes) : Option Block :=
  (P.blockBody.fromSlice bytes).map fun body => { body with id? := none, key := none }

/-- `serde_bare::to_vec` of a block. -/
def toVec (b : Block) : Bytes := P.blockBody.toVec b.toBlockBody

/-- The cached id is absent or the computed one. -/
def Valid (b : Block) : Prop := b.id P = b.getId P

section
variable {P}

theorem new_toBlockBody (children : List BlockId) (deps : ObjectDeps) (expiry : Option Timestamp)
    (content : Bytes) (key : Option SymKey) :
    (new P children deps expiry content key).toBlockBody = ⟨children, deps, expiry, content⟩ := rfl

theorem new_valid (children : List BlockId) (deps : ObjectDeps) (expiry : Option Timestamp)
    (content : Bytes) (key : Option SymKey) :
    (new P children deps expiry content key).Valid P := rfl

theorem setExpiry_valid (b : Block) (expiry : Option Timestamp) :
    (b.setExpiry expiry).Valid P := rfl

@[simp] theorem setKey_id (b : Block) (key : Option SymKey) : (b.setKey key).id P = b.id P := rfl

@[simp] theorem setKey_toBlockBody (b : Block) (key : Option SymKey) :
    (b.setKey key).toBlockBody = b.toBlockBody := rfl

@[simp] theorem setKey_key (b : Block) (key : Option SymKey) : (b.setKey key).key = key := rfl

theorem setKey_valid {b : Block} (h : b.Valid P) (key : Option SymKey) : (b.setKey key).Valid P := h

theorem fromSlice_valid {bytes : Bytes} {b : Block} (h : fromSlice P bytes = some b) :
    b.Valid P := by
  obtain ⟨body, -, rfl⟩ := Option.map_eq_some_iff.mp h
  rfl

theorem fromSlice_toVec (hP : P.SerdeLaws) (b : Block) :
    fromSlice P (b.toVec P) = some { b with id? := none, key := none } := by
  have h : P.blockBody.fromSlice (P.blockBody.toVec b.toBlockBody) = some b.toBlockBody :=
    hP.blockBody _
  simp [fromSlice, toVec, h]

theorem Valid.id_eq {b : Block} (h : b.Valid P) : b.id P = P.blockId b.toBlockBody := h

/-- Valid blocks with the same serialized fields have the same id. -/
theorem Valid.id_congr {b b' : Block} (h : b.Valid P) (h' : b'.Valid P)
    (he : b.toBlockBody = b'.toBlockBody) : b.id P = b'.id P := by
  rw [h.id_eq, h'.id_eq, he]

end

end Block

end Lofire
