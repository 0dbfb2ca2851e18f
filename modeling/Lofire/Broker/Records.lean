import Lofire.Broker.Store
import Lofire.Net.Types
import Lofire.Reference

/-!
# Records of the broker (`lofire-broker/src/{account,overlay,topic,peer,repostoreinfo,config}.rs`)

Each kind of record has a prefix for its properties, one byte for each property, and one property
whose presence means that the record exists. What the kinds have in common are the programs of
`Record`; each kind gives its own constants.
-/

namespace Lofire

open Lib

/-- The identity of a record. -/
structure Record where
  PREFIX : UInt8
  id : Bytes
  SUFFIX_FOR_EXIST_CHECK : UInt8

namespace Record

variable (r : Record)

def get (suffix : UInt8) : BrokerProgE Bytes := BrokerStore.get r.PREFIX r.id (some suffix)

def put (suffix : UInt8) (value : Bytes) : BrokerProgE Unit :=
  BrokerStore.put r.PREFIX r.id (some suffix) value

def replace (suffix : UInt8) (value : Bytes) : BrokerProgE Unit :=
  BrokerStore.replace r.PREFIX r.id (some suffix) value

/-- `self.exists()` -/
def doesExist : BrokerProg Bool := BrokerStore.isOk (r.get r.SUFFIX_FOR_EXIST_CHECK)

/-- `open(..)` -/
def openRecord : BrokerProgE Unit := do
  if !(← r.doesExist) then throw .notFound

/-- The check at the start of `create(..)`. -/
def checkNew : BrokerProgE Unit := do
  if ← r.doesExist then throw .backendError

/-- Add a value to a property of an existing record. -/
def add (suffix : UInt8) (value : Bytes) : BrokerProgE Unit := do
  if !(← r.doesExist) then throw .backendError
  r.put suffix value

def remove (suffix : UInt8) (value : Bytes) : BrokerProgE Unit :=
  BrokerStore.delPropertyValue r.PREFIX r.id (some suffix) value

def has (suffix : UInt8) (value : Bytes) : BrokerProgE Unit :=
  BrokerStore.hasPropertyValue r.PREFIX r.id (some suffix) value

/-- Replace the value of a property of an existing record. -/
def set (suffix : UInt8) (value : Bytes) : BrokerProgE Unit := do
  if !(← r.doesExist) then throw .backendError
  r.replace suffix value

/-- `del(..)` -/
def delRecord (allProperties : List UInt8) : BrokerProgE Unit :=
  BrokerStore.delAll r.PREFIX r.id allProperties

/-- Load a property and deserialize it. -/
def property {α : Type} (c : Codec α) (suffix : UInt8) : BrokerProgE α := do
  match c.fromBytes (← r.get suffix) with
  | some a => return a
  | none => throw .serializationError

end Record

/-! ## User accounts -/

namespace Account

def CLIENT : UInt8 := 99
def ADMIN : UInt8 := 97
def OVERLAY : UInt8 := 111

def ALL_PROPERTIES : List UInt8 := [CLIENT, ADMIN, OVERLAY]

def record (id : UserId) : Record := ⟨117, Reference.pubKey.encode id, ADMIN⟩

def openId (id : UserId) : BrokerProgE Unit := (record id).openRecord

def create (id : UserId) (admin : Bool) : BrokerProgE Unit := do
  (record id).checkNew
  (record id).put ADMIN (Codec.bool.encode admin)

def addClient (id : UserId) (client : PubKey) : BrokerProgE Unit :=
  (record id).add CLIENT (Reference.pubKey.encode client)

def removeClient (id : UserId) (client : PubKey) : BrokerProgE Unit :=
  (record id).remove CLIENT (Reference.pubKey.encode client)

def hasClient (id : UserId) (client : PubKey) : BrokerProgE Unit :=
  (record id).has CLIENT (Reference.pubKey.encode client)

def addOverlay (id : UserId) (overlay : OverlayId) : BrokerProgE Unit :=
  (record id).add OVERLAY (Reference.digest.encode overlay)

def removeOverlay (id : UserId) (overlay : OverlayId) : BrokerProgE Unit :=
  (record id).remove OVERLAY (Reference.digest.encode overlay)

def hasOverlay (id : UserId) (overlay : OverlayId) : BrokerProgE Unit :=
  (record id).has OVERLAY (Reference.digest.encode overlay)

def isAdmin (id : UserId) : BrokerProg Bool :=
  BrokerStore.isOk ((record id).has ADMIN (Codec.bool.encode true))

def del (id : UserId) : BrokerProgE Unit := (record id).delRecord ALL_PROPERTIES

end Account

/-! ## Overlays -/

structure OverlayMeta where
  users : UInt32
  lastUsed : Timestamp
  deriving DecidableEq

namespace OverlayMeta

def codec : Codec OverlayMeta :=
  (Codec.u32.pair Codec.u32).iso (fun p => ⟨p.1, p.2⟩) (fun m => (m.users, m.lastUsed)) fun _ => rfl

end OverlayMeta

namespace Overlay

def SECRET : UInt8 := 115
def PEER : UInt8 := 112
def TOPIC : UInt8 := 116
def META : UInt8 := 109
def REPO : UInt8 := 114

def ALL_PROPERTIES : List UInt8 := [SECRET, PEER, TOPIC, META, REPO]

def record (id : OverlayId) : Record := ⟨111, Reference.digest.encode id, SECRET⟩

def openId (id : OverlayId) : BrokerProgE Unit := (record id).openRecord

def create (id : OverlayId) (secret : SymKey) (repo : Option PubKey) (now : Timestamp) :
    BrokerProgE Unit := do
  (record id).checkNew
  (record id).put SECRET (Reference.symKey.encode secret)
  if let some repo := repo then
    (record id).put REPO (Reference.pubKey.encode repo)
  (record id).put META (OverlayMeta.codec.encode ⟨1, now⟩)

def addPeer (id : OverlayId) (peer : PeerId) : BrokerProgE Unit :=
  (record id).add PEER (Reference.pubKey.encode peer)

def removePeer (id : OverlayId) (peer : PeerId) : BrokerProgE Unit :=
  (record id).remove PEER (Reference.pubKey.encode peer)

def hasPeer (id : OverlayId) (peer : PeerId) : BrokerProgE Unit :=
  (record id).has PEER (Reference.pubKey.encode peer)

def addTopic (id : OverlayId) (topic : PubKey) : BrokerProgE Unit :=
  (record id).add TOPIC (Reference.pubKey.encode topic)

def removeTopic (id : OverlayId) (topic : PubKey) : BrokerProgE Unit :=
  (record id).remove TOPIC (Reference.pubKey.encode topic)

def hasTopic (id : OverlayId) (topic : PubKey) : BrokerProgE Unit :=
  (record id).has TOPIC (Reference.pubKey.encode topic)

def secret (id : OverlayId) : BrokerProgE SymKey := (record id).property Reference.symKey SECRET

def metadata (id : OverlayId) : BrokerProgE OverlayMeta :=
  (record id).property OverlayMeta.codec META

def setMetadata (id : OverlayId) (m : OverlayMeta) : BrokerProgE Unit :=
  (record id).set META (OverlayMeta.codec.encode m)

def repo (id : OverlayId) : BrokerProgE PubKey := (record id).property Reference.pubKey REPO

def del (id : OverlayId) : BrokerProgE Unit := (record id).delRecord ALL_PROPERTIES

end Overlay

/-! ## Topics -/

structure TopicMeta where
  users : UInt32
  deriving DecidableEq

namespace TopicMeta

def codec : Codec TopicMeta := Codec.u32.iso TopicMeta.mk users fun _ => rfl

end TopicMeta

namespace Topic

def ADVERT : UInt8 := 97
def HEAD : UInt8 := 104
def META : UInt8 := 109

def ALL_PROPERTIES : List UInt8 := [ADVERT, HEAD, META]

def record (id : PubKey) : Record := ⟨116, Reference.pubKey.encode id, META⟩

def openId (id : PubKey) : BrokerProgE Unit := (record id).openRecord

def create (id : PubKey) : BrokerProgE Unit := do
  (record id).checkNew
  (record id).put META (TopicMeta.codec.encode ⟨0⟩)

def addHead (id : PubKey) (head : ObjectId) : BrokerProgE Unit :=
  (record id).add HEAD (Reference.digest.encode head)

def removeHead (id : PubKey) (head : ObjectId) : BrokerProgE Unit :=
  (record id).remove HEAD (Reference.digest.encode head)

def hasHead (id : PubKey) (head : ObjectId) : BrokerProgE Unit :=
  (record id).has HEAD (Reference.digest.encode head)

def metadata (id : PubKey) : BrokerProgE TopicMeta := (record id).property TopicMeta.codec META

def setMetadata (id : PubKey) (m : TopicMeta) : BrokerProgE Unit :=
  (record id).set META (TopicMeta.codec.encode m)

def del (id : PubKey) : BrokerProgE Unit := (record id).delRecord ALL_PROPERTIES

end Topic

/-! ## Peers -/

namespace Peer

def VERSION : UInt8 := 118
def ADVERT : UInt8 := 97

def ALL_PROPERTIES : List UInt8 := [VERSION, ADVERT]

def record (id : PeerId) : Record := ⟨112, Reference.pubKey.encode id, VERSION⟩

def ip : Codec IP :=
  Codec.union [⟨_, Codec.byte.array 4, .ipv4, fun | .ipv4 b => some b | _ => none,
      fun a _ h => by cases a <;> cases h; rfl⟩,
    ⟨_, Codec.byte.array 16, .ipv6, fun | .ipv6 b => some b | _ => none,
      fun a _ h => by cases a <;> cases h; rfl⟩]
    fun a => by cases a <;> simp

def protocol : Codec IPTransportProtocol :=
  Codec.union ([.tls, .quic].map Codec.Variant.const)
    fun a => ⟨.const a, List.mem_map_of_mem (by cases a <;> simp), Codec.Variant.const_proj a⟩

def netAddr : Codec NetAddr :=
  (ip.pair (Codec.u16.pair protocol)).tagged.iso (fun p => ⟨p.1, p.2.1, p.2.2⟩)
    (fun a => (a.ip, a.port, a.protocol)) fun _ => rfl

def peerAdvertContent : Codec PeerAdvertContent :=
  (Reference.pubKey.pair ((Reference.bytes32.array 4).pair (netAddr.list.pair
    (Codec.u32.pair Reference.data)))).iso (fun p => ⟨p.1, p.2.1, p.2.2.1, p.2.2.2.1, p.2.2.2.2⟩)
    (fun a => (a.peer, a.subs, a.address, a.version, a.metadata)) fun _ => rfl

def peerAdvert : Codec PeerAdvert :=
  (peerAdvertContent.pair (Reference.sig.pair Codec.byte)).tagged.iso
    (fun p => ⟨p.1, p.2.1, p.2.2⟩) (fun a => (a.content, a.sig, a.ttl)) fun _ => rfl

def openId (id : PeerId) : BrokerProgE Unit := (record id).openRecord

def create (advert : PeerAdvert) : BrokerProgE Unit := do
  (record advert.peer).checkNew
  (record advert.peer).put VERSION (Codec.u32.encode advert.version)
  (record advert.peer).put ADVERT (peerAdvert.encode advert)

def version (id : PeerId) : BrokerProgE UInt32 := (record id).property Codec.u32 VERSION

def setVersion (id : PeerId) (version : UInt32) : BrokerProgE Unit :=
  (record id).set VERSION (Codec.u32.encode version)

def advert (id : PeerId) : BrokerProgE PeerAdvert := (record id).property peerAdvert ADVERT

def updateAdvert (id : PeerId) (advert : PeerAdvert) : BrokerProgE Unit := do
  if advert.peer ≠ id then throw .invalidValue
  let currentAdvert ← (Peer.advert id).adapt fun _ => .backendError
  if advert.version ≤ currentAdvert.version then return
  (record id).replace ADVERT (peerAdvert.encode advert)

def updateOrCreate (advert : PeerAdvert) : BrokerProgE Unit := ExceptT.mk do
  match ← (openId advert.peer).run with
  | .error .notFound => (create advert).run
  | .error _ => return .error .backendError
  | .ok () => (updateAdvert advert.peer advert).run

def setAdvert (id : PeerId) (advert : PeerAdvert) : BrokerProgE Unit :=
  (record id).set ADVERT (peerAdvert.encode advert)

def del (id : PeerId) : BrokerProgE Unit := (record id).delRecord ALL_PROPERTIES

end Peer

/-! ## Repo stores -/

/-- A repo store is identified by its repo pubkey in local mode and by the overlay id in core
mode. -/
inductive RepoStoreId
  | overlay (id : OverlayId)
  | repo (id : PubKey)
  deriving DecidableEq

namespace RepoStoreInfo

def KEY : UInt8 := 107

def ALL_PROPERTIES : List UInt8 := [KEY]

def repoStoreId : Codec RepoStoreId :=
  Codec.union [⟨_, Reference.digest, .overlay, fun | .overlay id => some id | _ => none,
      fun a _ h => by cases a <;> cases h; rfl⟩,
    ⟨_, Reference.pubKey, .repo, fun | .repo id => some id | _ => none,
      fun a _ h => by cases a <;> cases h; rfl⟩]
    fun a => by cases a <;> simp

def record (id : RepoStoreId) : Record := ⟨114, repoStoreId.encode id, KEY⟩

def openId (id : RepoStoreId) : BrokerProgE Unit := (record id).openRecord

def create (id : RepoStoreId) (key : SymKey) : BrokerProgE Unit := do
  (record id).checkNew
  (record id).put KEY (Reference.symKey.encode key)

def key (id : RepoStoreId) : BrokerProgE SymKey := (record id).property Reference.symKey KEY

def del (id : RepoStoreId) : BrokerProgE Unit := (record id).delRecord ALL_PROPERTIES

end RepoStoreInfo

/-! ## The broker's configuration -/

/-- `ConfigMode` -/
inductive ConfigMode
  | localMode
  | coreMode
  deriving DecidableEq

namespace Config

def MODE : UInt8 := 109

/-- `*b"onfig"` -/
def KEY : Vector UInt8 5 := #v[111, 110, 102, 105, 103]

def configMode : Codec ConfigMode :=
  Codec.union ([.localMode, .coreMode].map Codec.Variant.const)
    fun a => ⟨.const a, List.mem_map_of_mem (by cases a <;> simp), Codec.Variant.const_proj a⟩

def record : Record := ⟨99, (Codec.byte.array 5).encode KEY, MODE⟩

def openConfig : BrokerProgE Unit := record.openRecord

def create (mode : ConfigMode) : BrokerProgE Unit := do
  record.checkNew
  record.put MODE (configMode.encode mode)

def mode : BrokerProgE ConfigMode := record.property configMode MODE

/-- `None` is an `unwrap` that panics. -/
def getOrCreate (mode : ConfigMode) : OptionT BrokerProg (Except StorageError Unit) :=
  OptionT.mk do
    match ← openConfig.run with
    | .error .notFound => return some (← (create mode).run)
    | .error _ => return some (.error .backendError)
    | .ok () =>
      match ← Config.mode.run with
      | .error _ => return none
      | .ok m => return some (if m = mode then .ok () else .error .invalidValue)

end Config

end Lofire
