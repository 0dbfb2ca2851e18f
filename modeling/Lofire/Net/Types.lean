import Lofire.Types

/-!
# Messages of the broker protocol (`lofire-net/src/types.rs`)

The messages between a client and a broker. As in `Lofire.Types`, a type with one version is the
record of that version. `BrokerMessage` has a second constructor `Close`. An accessor that panics on
some messages returns `none` there.
-/

namespace Lofire

/-- Peer ID: public key of the node -/
abbrev PeerId := PubKey

abbrev OverlayId := Digest

/-- User ID: user account for broker -/
abbrev UserId := PubKey

/-- IP address -/
inductive IP
  | ipv4 (bytes : Vector UInt8 4)
  | ipv6 (bytes : Vector UInt8 16)
  deriving DecidableEq

/-- IP transport protocol -/
inductive IPTransportProtocol
  | tls
  | quic
  deriving DecidableEq

/-- Network address -/
structure NetAddr where
  iPTransport ::
  ip : IP
  port : UInt16
  protocol : IPTransportProtocol
  deriving DecidableEq

/-- Bloom filter (128 B) -/
abbrev BloomFilter128 := Vector (Vector UInt8 32) 4

structure PeerAdvertContent where
  peer : PeerId
  subs : BloomFilter128
  address : List NetAddr
  version : UInt32
  metadata : Bytes
  deriving DecidableEq

/-- Peer advertisement -/
structure PeerAdvert where
  content : PeerAdvertContent
  sig : Sig
  ttl : UInt8
  deriving DecidableEq

namespace PeerAdvert

def version (a : PeerAdvert) : UInt32 := a.content.version

def peer (a : PeerAdvert) : PeerId := a.content.peer

end PeerAdvert

/-- Topic advertisement by a publisher -/
structure TopicAdvert where
  topic : PubKey
  peer : PeerId
  sig : Sig
  deriving DecidableEq

/-- Body of an event -/
inductive EventBody
  | subAck
  | change
  deriving DecidableEq

/-- Pub/sub event published in a topic -/
structure Event where
  topic : PubKey
  publisher : Vector UInt8 32
  seq : UInt32
  body : EventBody
  sig : Sig
  deriving DecidableEq

/-- Request latest events corresponding to the branch heads in a pub/sub topic -/
structure BranchHeadsReq where
  topic : PubKey
  knownHeads : List ObjectId
  deriving DecidableEq

/-- Branch synchronization request -/
structure BranchSyncReq where
  /-- Heads to request, including all their dependencies -/
  heads : List ObjectId
  /-- Fully synchronized until these commits -/
  knownHeads : List ObjectId
  /-- Known commit IDs since known_heads -/
  knownCommits : BloomFilter
  deriving DecidableEq

/-! ## Requests to the broker -/

inductive BrokerRequestContent
  | addUser (user : PubKey) (sig : Sig)
  | delUser (user : PubKey) (sig : Sig)
  | addClient (client : PubKey) (sig : Sig)
  | delClient (client : PubKey) (sig : Sig)
  deriving DecidableEq

structure BrokerRequest where
  id : UInt64
  content : BrokerRequestContent
  deriving DecidableEq

structure BrokerResponse where
  id : UInt64
  result : UInt16
  deriving DecidableEq

/-! ## Requests to an overlay -/

/-- Request to join an overlay -/
structure OverlayJoin where
  secret : SymKey
  repoPubkey : Option PubKey
  peers : List PeerAdvert
  deriving DecidableEq

/-- Request a Block by ID -/
structure BlockGet where
  id : BlockId
  includeChildren : Bool
  topic : Option PubKey
  deriving DecidableEq

structure OverlayStatusResp where
  joined : Bool
  peers : List PeerAdvert
  deriving DecidableEq

inductive BrokerOverlayRequestContent
  | overlayConnect
  | overlayStatusReq
  | overlayJoin (j : OverlayJoin)
  | overlayLeave
  | topicSub (topic : PubKey) (advert : Option TopicAdvert)
  | topicUnsub (topic : PubKey)
  | topicConnect (topic : PubKey)
  | topicDisconnect (topic : PubKey)
  | event (e : Event)
  | blockGet (b : BlockGet)
  | blockPut (b : Block)
  | objectPin (id : ObjectId)
  | objectUnpin (id : ObjectId)
  | objectCopy (id : ObjectId) (expiry : Option Timestamp)
  | objectDel (id : ObjectId)
  | branchHeadsReq (b : BranchHeadsReq)
  | branchSyncReq (b : BranchSyncReq)
  deriving DecidableEq

structure BrokerOverlayRequest where
  id : UInt64
  content : BrokerOverlayRequestContent
  deriving DecidableEq

inductive BrokerOverlayResponseContent
  | block (b : Block)
  | objectId (id : ObjectId)
  | overlayStatusResp (resp : OverlayStatusResp)
  deriving DecidableEq

structure BrokerOverlayResponse where
  id : UInt64
  result : UInt16
  content : Option BrokerOverlayResponseContent
  deriving DecidableEq

/-- `response.block()`; it panics on other contents. -/
def BrokerOverlayResponse.block (r : BrokerOverlayResponse) : Option (Option Block) :=
  match r.content with
  | some (.block b) => some (some b)
  | some _ => none
  | none => some none

/-- `response.object_id()`; it panics on other contents and without a content. -/
def BrokerOverlayResponse.objectId (r : BrokerOverlayResponse) : Option ObjectId :=
  match r.content with
  | some (.objectId id) => some id
  | _ => none

inductive BrokerOverlayMessageContent
  | brokerOverlayRequest (r : BrokerOverlayRequest)
  | brokerOverlayResponse (r : BrokerOverlayResponse)
  | event (e : Event)
  deriving DecidableEq

/-- Broker message for an overlay -/
structure BrokerOverlayMessage where
  overlay : OverlayId
  content : BrokerOverlayMessageContent
  deriving DecidableEq

inductive BrokerMessageContent
  | brokerRequest (r : BrokerRequest)
  | brokerResponse (r : BrokerResponse)
  | brokerOverlayMessage (m : BrokerOverlayMessage)
  deriving DecidableEq

/-- Broker message -/
inductive BrokerMessage
  | v0 (content : BrokerMessageContent) (padding : Bytes)
  | close
  deriving DecidableEq

namespace BrokerOverlayMessage

def id (m : BrokerOverlayMessage) : Option UInt64 :=
  match m.content with
  | .brokerOverlayRequest r => some r.id
  | .brokerOverlayResponse r => some r.id
  | .event _ => none

def isRequest (m : BrokerOverlayMessage) : Bool :=
  match m.content with
  | .brokerOverlayRequest _ => true
  | _ => false

def isResponse (m : BrokerOverlayMessage) : Bool :=
  match m.content with
  | .brokerOverlayResponse _ => true
  | _ => false

end BrokerOverlayMessage

namespace BrokerMessage

def isClose : BrokerMessage → Bool
  | v0 .. => false
  | close => true

def isRequest : BrokerMessage → Option Bool
  | v0 (.brokerOverlayMessage m) _ => some m.isRequest
  | v0 (.brokerResponse _) _ => some false
  | v0 (.brokerRequest _) _ => some true
  | close => none

def isResponse : BrokerMessage → Option Bool
  | v0 (.brokerOverlayMessage m) _ => some m.isResponse
  | v0 (.brokerResponse _) _ => some true
  | v0 (.brokerRequest _) _ => some false
  | close => none

def id : BrokerMessage → Option UInt64
  | v0 (.brokerOverlayMessage m) _ => m.id
  | v0 (.brokerResponse r) _ => some r.id
  | v0 (.brokerRequest r) _ => some r.id
  | close => none

def result : BrokerMessage → Option UInt16
  | v0 (.brokerOverlayMessage ⟨_, .brokerOverlayResponse r⟩) _ => some r.result
  | v0 (.brokerResponse r) _ => some r.result
  | _ => none

def isOverlay : BrokerMessage → Option Bool
  | v0 (.brokerOverlayMessage _) _ => some true
  | v0 _ _ => some false
  | close => none

def responseBlock : BrokerMessage → Option (Option Block)
  | v0 (.brokerOverlayMessage ⟨_, .brokerOverlayResponse r⟩) _ => r.block
  | _ => none

def responseObjectId : BrokerMessage → Option ObjectId
  | v0 (.brokerOverlayMessage ⟨_, .brokerOverlayResponse r⟩) _ => r.objectId
  | _ => none

end BrokerMessage

/-! ## Out-of-band messages -/

/-- Link/invitation to the repository -/
structure RepoLink where
  id : PubKey
  secret : SymKey
  peers : List PeerAdvert
  deriving DecidableEq

end Lofire
