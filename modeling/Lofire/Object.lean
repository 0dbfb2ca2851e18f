import Lofire.Store
import Lofire.Lib.Chunks

/-!
# Merkle hash tree of objects (`lofire/src/object.rs`)

The functions of `Object` as the source computes them. `none` in an `Option` result means that the
function does not return: it panics, or the bound on its recursion is reached. The functions that
use a store are written for any monad `m` with the store's `get` or `put` as an argument, as the
source takes any `impl RepoStore`.

`new` and `makeDeps` call each other in the source, but the inner call of `new` has no
dependencies. The part of `new` after the call of `makeDeps` is `newWithDeps`, and `makeDeps_eq`
gives `makeDeps` back in the source's form.
-/

namespace Lofire

open Lib

/-- Size of a serialized empty Block -/
def EMPTY_BLOCK_SIZE : Nat := 12
/-- Size of a serialized BlockId -/
def BLOCK_ID_SIZE : Nat := 33
/-- Size of serialized SymKey -/
def BLOCK_KEY_SIZE : Nat := 33
/-- Varint extra bytes when reaching the maximum value we will ever use -/
def BIG_VARINT_EXTRA : Nat := 3
/-- Varint extra bytes when reaching the maximum size of data byte arrays. -/
def DATA_VARINT_EXTRA : Nat := 4
/-- Max extra space used by the deps list -/
def MAX_DEPS_SIZE : Nat := 8 * BLOCK_ID_SIZE

structure Object where
  /-- Blocks of the Object (nodes of the tree) -/
  blocks : List Block
  /-- Dependencies -/
  deps : List ObjectId
  deriving DecidableEq

/-- Object parsing errors -/
inductive ObjectParseError
  | missingBlocks (ids : List BlockId)
  | missingRootKey
  | invalidBlockId
  | invalidChildren
  | invalidKeys
  | invalidDeps
  | blockDeserializeError
  | objectDeserializeError
  deriving DecidableEq

/-- Object copy error -/
inductive ObjectCopyError
  | notFound
  | parseError
  deriving DecidableEq

namespace Object

variable (P : Primitives)

/-! ## Accessors -/

/-- `self.blocks.last().unwrap()` -/
def root (o : Object) : Option Block := o.blocks.getLast?

/-- Get the ID of the Object -/
def id (o : Object) : Option ObjectId := o.root.map (Block.id P)

/-- Get the key for the Object -/
def key (o : Object) : Option (Option SymKey) := o.root.map Block.key

def expiry (o : Object) : Option (Option Timestamp) := o.root.map fun root => root.expiry

/-! ## Building the tree -/

def convergenceKey (repoPubkey : PubKey) (repoSecret : SymKey) : Vector UInt8 32 :=
  P.deriveKey "LoFiRe Data BLAKE3 key" (repoPubkey.slice.toList ++ repoSecret.slice.toList)

def makeBlock (content : Bytes) (convKey : Vector UInt8 32) (children : List ObjectId)
    (deps : ObjectDeps) (expiry : Option Timestamp) : Block :=
  let key := P.keyedHash convKey content
  Block.new P children deps expiry (P.applyKeystream key content) (some ⟨key⟩)

/-- The loop of `makeTree` over the chunks of one level. -/
def makeParents (convKey : Vector UInt8 32) (rootDeps : ObjectDeps) (expiry : Option Timestamp) :
    List (List Block) → List Block → Option (List Block)
  | [], parents => some parents
  | nodes :: rest, parents => do
    let keys ← nodes.mapM Block.key
    let children := nodes.map (Block.id P)
    let deps := if parents.isEmpty && rest.isEmpty then rootDeps else .objectIdList []
    makeParents convKey rootDeps expiry rest (parents ++
      [makeBlock P (P.blockContent.toVec (.internalNode keys)) convKey children deps expiry])

/-- Build tree from leaves, returns parent nodes -/
def makeTree (convKey : Vector UInt8 32) (rootDeps : ObjectDeps) (expiry : Option Timestamp)
    (arity : Nat) : Nat → List Block → Option (List Block)
  | 0, _ => none
  | fuel + 1, leaves => do
    let parents ← makeParents P convKey rootDeps expiry (chunks arity leaves) []
    if 1 < parents.length then
      let greatParents ← makeTree convKey rootDeps expiry arity fuel parents
      return parents ++ greatParents
    else return parents

/-- arity: max number of ObjectRefs that fit inside an InternalNode Object within the size limit -/
def arity (validBlockSize : Nat) : Nat :=
  (validBlockSize - EMPTY_BLOCK_SIZE - BIG_VARINT_EXTRA * 2 - MAX_DEPS_SIZE)
    / (BLOCK_ID_SIZE + BLOCK_KEY_SIZE)

/-- A block that holds a piece of the serialized content. -/
def makeDataBlock (convKey : Vector UInt8 32) (deps : ObjectDeps) (expiry : Option Timestamp)
    (chunk : Bytes) : Block :=
  makeBlock P (P.blockContent.toVec (.dataChunk chunk)) convKey [] deps expiry

/-- `new` after the call of `makeDeps`. -/
def newWithDeps (content : ObjectContent) (deps : List ObjectId) (objDeps : ObjectDeps)
    (expiry : Option Timestamp) (validBlockSize : Nat) (repoPubkey : PubKey)
    (repoSecret : SymKey) : Option Object := do
  let dataChunkSize := validBlockSize - EMPTY_BLOCK_SIZE - DATA_VARINT_EXTRA
  let convKey := convergenceKey P repoPubkey repoSecret
  let contentSer := P.objectContent.toVec content
  if EMPTY_BLOCK_SIZE + DATA_VARINT_EXTRA + BLOCK_ID_SIZE * deps.length + contentSer.length
      ≤ validBlockSize then
    -- content fits in root node
    return ⟨[makeDataBlock P convKey objDeps expiry contentSer], deps⟩
  else
    -- chunk content and create leaf nodes
    let leaves := (chunks dataChunkSize contentSer).map
      (makeDataBlock P convKey (.objectIdList []) expiry)
    let parents ← makeTree P convKey objDeps expiry (arity validBlockSize)
      (leaves.length + 1) leaves
    return ⟨leaves ++ parents, deps⟩

/-- The object that `makeDeps` creates for a long list of dependencies. -/
def newDepList (depsVec : List ObjectId) (objectSize : Nat) (repoPubkey : PubKey)
    (repoSecret : SymKey) : Option Object := do
  let validBlockSize ← storeValidValueSize objectSize
  newWithDeps P (.depList depsVec) [] (.objectIdList []) none validBlockSize repoPubkey repoSecret

def makeDeps (depsVec : List ObjectId) (objectSize : Nat) (repoPubkey : PubKey)
    (repoSecret : SymKey) : Option ObjectDeps :=
  if depsVec.length ≤ 8 then some (.objectIdList depsVec)
  else do
    let depObj ← newDepList P depsVec objectSize repoPubkey repoSecret
    let id ← depObj.id P
    let key ← depObj.key
    return .depListRef ⟨id, ← key⟩

/-- Create new Object from given content -/
def new (content : ObjectContent) (deps : List ObjectId) (expiry : Option Timestamp)
    (blockSize : Nat) (repoPubkey : PubKey) (repoSecret : SymKey) : Option Object := do
  let validBlockSize ← storeValidValueSize blockSize
  let objDeps ← makeDeps P deps validBlockSize repoPubkey repoSecret
  newWithDeps P content deps objDeps expiry validBlockSize repoPubkey repoSecret

theorem newDepList_eq (depsVec : List ObjectId) (objectSize : Nat) (repoPubkey : PubKey)
    (repoSecret : SymKey) :
    newDepList P depsVec objectSize repoPubkey repoSecret =
      new P (.depList depsVec) [] none objectSize repoPubkey repoSecret := rfl

/-- Up to 8 dependencies are listed in the root, more are referred to. -/
theorem makeDeps_cases {P} {depsVec : List ObjectId} {objectSize : Nat} {repoPubkey : PubKey}
    {repoSecret : SymKey} {objDeps : ObjectDeps}
    (h : makeDeps P depsVec objectSize repoPubkey repoSecret = some objDeps) :
    (depsVec.length ≤ 8 ∧ objDeps = .objectIdList depsVec) ∨
      8 < depsVec.length ∧ ∃ r, objDeps = .depListRef r := by
  unfold makeDeps at h
  split at h
  · rename_i hshort
    exact .inl ⟨hshort, (Option.some.inj h).symm⟩
  · rename_i hlong
    obtain ⟨depObj, -, h⟩ := Option.bind_eq_some_iff.mp h
    obtain ⟨id, -, h⟩ := Option.bind_eq_some_iff.mp h
    obtain ⟨key, -, h⟩ := Option.bind_eq_some_iff.mp h
    obtain ⟨key', -, h⟩ := Option.bind_eq_some_iff.mp h
    exact .inr ⟨Nat.not_le.mp hlong, _, (Option.some.inj h).symm⟩

/-- `makeDeps` as the source states it. -/
theorem makeDeps_eq (depsVec : List ObjectId) (objectSize : Nat) (repoPubkey : PubKey)
    (repoSecret : SymKey) :
    makeDeps P depsVec objectSize repoPubkey repoSecret =
      if depsVec.length ≤ 8 then some (.objectIdList depsVec)
      else do
        let depObj ← new P (.depList depsVec) [] none objectSize repoPubkey repoSecret
        let id ← depObj.id P
        let key ← depObj.key
        return .depListRef ⟨id, ← key⟩ := rfl

/-! ## Parsing the tree -/

/-- The output parameters `leaves` and `obj_content` of `collect_leaves`. -/
structure Collected where
  leaves : Option (List Block)
  objContent : Option Bytes

def Collected.push (out : Collected) (leaf : Block) (chunk : Bytes) : Collected where
  leaves := out.leaves.map (· ++ [leaf])
  objContent := out.objContent.map (· ++ chunk)

/-- The loop of `collectLeaves` over one level. -/
def collectLevel (blocks : List Block) : List (ObjectId × SymKey) → Nat →
    List (ObjectId × SymKey) → Collected →
    Option (Except ObjectParseError (List (ObjectId × SymKey) × Collected))
  | [], _, children, out => some (.ok (children, out))
  | (id, key) :: parents, i, children, out =>
    match blocks[i]? with
    | none => none
    | some block =>
      -- verify object ID
      if id ≠ block.id P then some (.error .invalidBlockId)
      else
        -- decrypt and deserialize content
        match P.blockContent.fromSlice (P.applyKeystream key.slice block.content) with
        | none => some (.error .blockDeserializeError)
        | some (.internalNode keys) =>
          if keys.length ≠ block.children.length then some (.error .invalidKeys)
          else collectLevel blocks parents (i + 1) (children ++ block.children.zip keys) out
        | some (.dataChunk chunk) =>
          collectLevel blocks parents (i + 1) children (out.push (block.setKey (some key)) chunk)

/-- Collect leaves from the tree -/
def collectLeaves (blocks : List Block) : Nat → List (ObjectId × SymKey) → Nat → Collected →
    Option (Except ObjectParseError Collected)
  | 0, _, _, _ => none
  | fuel + 1, parents, parentIndex, out =>
    match collectLevel P blocks parents parentIndex [] out with
    | none => none
    | some (.error e) => some (.error e)
    | some (.ok (children, out)) =>
      if children.isEmpty then some (.ok out)
      else if parentIndex < children.length then some (.error .invalidChildren)
      else collectLeaves blocks fuel children (parentIndex - children.length) out

/-- Parse the Object and return the leaf Blocks with decryption key set -/
def leaves (o : Object) : Option (Except ObjectParseError (List Block)) := do
  let id ← o.id P
  let key ← o.key
  let parents := [(id, ← key)]
  let res ← collectLeaves P o.blocks o.blocks.length parents (o.blocks.length - 1) ⟨some [], none⟩
  return res.map fun out => out.leaves.getD []

/-- Parse the Object and return the decrypted content assembled from Blocks -/
def content (o : Object) : Option (Except ObjectParseError ObjectContent) :=
  match o.key with
  | none => none
  | some none => some (.error .missingRootKey)
  | some (some key) =>
    match o.id P with
    | none => none
    | some id =>
      match collectLeaves P o.blocks o.blocks.length [(id, key)] (o.blocks.length - 1)
          ⟨none, some []⟩ with
      | none => none
      | some (.error e) => some (.error e)
      | some (.ok out) =>
        match P.objectContent.fromSlice (out.objContent.getD []) with
        | none => some (.error .objectDeserializeError)
        | some c => some (.ok c)

/-! ## Copying -/

def copy (o : Object) (expiry : Option Timestamp) (repoPubkey : PubKey) (repoSecret : SymKey) :
    Option (Except ObjectCopyError Object) := do
  match ← o.leaves P with
  | .error _ => return .error .parseError
  | .ok leaves =>
    let convKey := convergenceKey P repoPubkey repoSecret
    let blockSize := (← leaves.head?).content.length
    let validBlockSize ← storeValidValueSize blockSize
    let blocks := leaves.map fun block => block.setExpiry expiry
    -- internal nodes
    let parents ← makeTree P convKey (← o.root).deps expiry (arity validBlockSize)
      (blocks.length + 1) blocks
    return .ok ⟨blocks ++ parents, o.deps⟩

/-! ## Loading and saving -/

section Store

variable {m : Type → Type} [Monad m]

/-- The loop of `load_tree` over one level; returns the children, the blocks and the missing ids. -/
def loadLevel (get : BlockId → m (Except StorageError Block)) : List BlockId → List BlockId →
    List Block → List BlockId → m (List BlockId × List Block × List BlockId)
  | [], children, blocks, missing => pure (children, blocks, missing)
  | id :: parents, children, blocks, missing => do
    match ← get id with
    | .ok block =>
      loadLevel get parents (children ++ block.children.reverse) (block :: blocks) missing
    | .error _ => loadLevel get parents children blocks (missing ++ [id])

def loadTree (get : BlockId → m (Except StorageError Block)) : Nat → List BlockId →
    List Block → List BlockId → m (Option (List Block × List BlockId))
  | 0, _, _, _ => pure none
  | fuel + 1, parents, blocks, missing => do
    let (children, blocks, missing) ← loadLevel get parents [] blocks missing
    if children.isEmpty then pure (some (blocks, missing))
    else loadTree get fuel children blocks missing

/-- `blocks.last_mut().unwrap().set_key(key)` -/
def setRootKey (blocks : List Block) (key : Option SymKey) : List Block :=
  blocks.modifyLast fun root => root.setKey key

/-- Load an Object from RepoStore -/
def load (get : BlockId → m (Except StorageError Block)) : Nat → ObjectId → Option SymKey →
    m (Option (Except ObjectParseError Object))
  | 0, _, _ => pure none
  | fuel + 1, id, key => do
    match ← loadTree get (fuel + 1) [id] [] [] with
    | none => pure none
    | some (blocks, missing) =>
      if !missing.isEmpty then pure (some (.error (.missingBlocks missing)))
      else
        let blocks := if key.isSome then setRootKey blocks key else blocks
        match blocks.getLast? with
        | none => pure none
        | some root =>
          match root.deps with
          | .objectIdList depsVec => pure (some (.ok ⟨blocks, depsVec⟩))
          | .depListRef depsRef =>
            match ← load get fuel depsRef.id (some depsRef.key) with
            | none => pure none
            | some (.error e) => pure (some (.error e))
            | some (.ok obj) =>
              match obj.content P with
              | none => pure none
              | some (.error e) => pure (some (.error e))
              | some (.ok (.depList depsVec)) => pure (some (.ok ⟨blocks, depsVec⟩))
              | some (.ok _) => pure (some (.error .invalidDeps))

/-- Run `f` on the blocks of a list, on the first block of each id only. -/
def forDistinct {ε : Type} (f : Block → m (Except ε Unit)) : List Block → List BlockId →
    m (Except ε Unit)
  | [], _ => pure (.ok ())
  | block :: blocks, deduplicated => do
    let id := block.id P
    if id ∈ deduplicated then forDistinct f blocks deduplicated
    else
      match ← f block with
      | .error e => pure (.error e)
      | .ok () => forDistinct f blocks (id :: deduplicated)

/-- Save blocks of the object in the store -/
def save (put : Block → m (Except StorageError BlockId)) (o : Object) :
    m (Except StorageError Unit) :=
  forDistinct P (fun block => do return (← put block).map fun _ => ()) o.blocks []

end Store

end Object

end Lofire
