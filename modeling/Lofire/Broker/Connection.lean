import Lofire.Broker.RepoAccess

/-!
# Connection to a broker (`lofire-broker/src/connection.rs`)

The trait `BrokerConnection`, its instance `BrokerConnectionLocal`, which calls the operations of a
broker in the same process, and the client of an overlay over any connection. A stream of blocks is
the list of the blocks it yields. The functions of the client are written for the monad `m` in which
the connection makes its requests; `none` means that the call does not return.
-/

namespace Lofire

/-- The trait `BrokerConnection`: the requests to an overlay. -/
structure BrokerConnection (m : Type → Type) where
  processOverlayRequest : OverlayId → BrokerOverlayRequestContent → m (Except ProtocolError Unit)
  processOverlayRequestStreamResponse :
    OverlayId → BrokerOverlayRequestContent → m (Except ProtocolError (List Block))

/-! ## A broker in the same process -/

/-- A broker with the environments of the requests to come. -/
structure LocalBroker where
  broker : BrokerServer
  envs : Nat → Env

/-- Requests to a broker in the same process. -/
abbrev LocalM := StateT LocalBroker Option

/-- A request takes the next environment. -/
def LocalM.request {α : Type} (x : Env → ServerM α) : LocalM (Except ProtocolError α) := fun s =>
  (s.broker.serve (x (s.envs 0))).map fun res => (res.1, ⟨res.2, fun n => s.envs (n + 1)⟩)

namespace BrokerConnectionLocal

section

variable (P : Primitives) (E : Env) (user : PubKey) (overlay : OverlayId)

def processOverlayRequest : BrokerOverlayRequestContent → ServerM Unit
  | .overlayConnect => BrokerServer.connectOverlay user overlay
  | .overlayJoin j => BrokerServer.joinOverlay E user overlay j.repoPubkey j.secret j.peers
  | .objectPin id => BrokerServer.pinObject P E overlay id
  | .objectUnpin id => BrokerServer.unpinObject P E overlay id
  | .objectDel id => BrokerServer.delObject P E overlay id
  | .blockPut b => BrokerServer.putBlock P E overlay b
  | _ => throw .invalidState

def processOverlayRequestStreamResponse : BrokerOverlayRequestContent → ServerM (List Block)
  | .blockGet b => BrokerServer.getBlock P E overlay b.id b.includeChildren
  | .branchSyncReq b => BrokerServer.syncBranch P E overlay b.heads b.knownHeads b.knownCommits
  | _ => throw .invalidState

end

/-- `impl BrokerConnection for BrokerConnectionLocal` -/
def connection (P : Primitives) (user : PubKey) : BrokerConnection LocalM where
  processOverlayRequest overlay request :=
    LocalM.request fun E => processOverlayRequest P E user overlay request
  processOverlayRequestStreamResponse overlay request :=
    LocalM.request fun E => processOverlayRequestStreamResponse P E overlay request

end BrokerConnectionLocal

/-! ## The client of an overlay -/

namespace OverlayConnectionClient

variable {m : Type → Type} [Monad m] (P : Primitives) (broker : BrokerConnection m)
  (overlay : OverlayId)

def getBlock (id : BlockId) (includeChildren : Bool) (topic : Option PubKey) :
    m (Except ProtocolError (List Block)) :=
  broker.processOverlayRequestStreamResponse overlay (.blockGet ⟨id, includeChildren, topic⟩)

/-- The loop of `getObject`: the blocks of the stream are put in a store. -/
def putAll : List Block → StoreM HashMapRepoStore Unit
  | [] => pure ()
  | block :: blocks => do
    match ← HashMapRepoStore.put P block with
    | .ok _ => putAll blocks
    | .error _ => throw .unwrap

def putBlock (block : Block) : m (Except ProtocolError BlockId) := do
  return (← broker.processOverlayRequest overlay (.blockPut block)).map fun _ => block.id P

end OverlayConnectionClient

end Lofire
