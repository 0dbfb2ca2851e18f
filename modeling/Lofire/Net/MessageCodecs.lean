import Lofire.Net.Codecs

/-!
# The encoding of the messages to a broker

The BARE encoding of `BrokerMessage`, for concrete examples. A type with a block in it has a codec
for the values that are sent, those without the fields of a block that are not serialized.
-/

namespace Lofire

open Lib Lib.Codec

namespace Reference

def bloomFilter : Codec BloomFilter :=
  (u32.pair data).iso (fun p => ⟨p.1, p.2⟩) (fun b => (b.k, b.f)) fun _ => rfl

def ip : Codec IP :=
  union [⟨_, byte.array 4, .ipv4, fun | .ipv4 bytes => some bytes | .ipv6 _ => none,
      fun a _ h => by cases a <;> cases h; rfl⟩,
    ⟨_, byte.array 16, .ipv6, fun | .ipv4 _ => none | .ipv6 bytes => some bytes,
      fun a _ h => by cases a <;> cases h; rfl⟩]
    fun a => by cases a <;> simp

def ipTransportProtocol : Codec IPTransportProtocol :=
  union [.const .tls, .const .quic] fun a => by cases a <;> simp [Variant.const]

def netAddr : Codec NetAddr :=
  (ip.pair (u16.pair ipTransportProtocol)).tagged.iso
  (fun (ip, port, protocol) => ⟨ip, port, protocol⟩)
    (fun a => (a.ip, a.port, a.protocol)) fun _ => rfl

def peerAdvertContent : Codec PeerAdvertContent :=
  (pubKey.pair ((bytes32.array 4).pair (netAddr.list.pair (u32.pair data)))).iso
    (fun (peer, subs, address, version, metadata) => ⟨peer, subs, address, version, metadata⟩)
    (fun c => (c.peer, c.subs, c.address, c.version, c.metadata)) fun _ => rfl

def peerAdvert : Codec PeerAdvert :=
  (peerAdvertContent.pair (sig.pair byte)).tagged.iso
  (fun (content, sig, ttl) => ⟨content, sig, ttl⟩)
    (fun a => (a.content, a.sig, a.ttl)) fun _ => rfl

def topicAdvert : Codec TopicAdvert :=
  (pubKey.pair (pubKey.pair sig)).tagged.iso (fun p => ⟨p.1, p.2.1, p.2.2⟩)
    (fun a => (a.topic, a.peer, a.sig)) fun _ => rfl

def eventBody : Codec EventBody :=
  union [.const .subAck, .const .change] fun a => by cases a <;> simp [Variant.const]

def event : Codec Event :=
  (pubKey.pair (bytes32.pair (u32.pair (eventBody.pair sig)))).tagged.iso
    (fun p => ⟨p.1, p.2.1, p.2.2.1, p.2.2.2.1, p.2.2.2.2⟩)
    (fun e => (e.topic, e.publisher, e.seq, e.body, e.sig)) fun _ => rfl

def branchHeadsReq : Codec BranchHeadsReq :=
  (pubKey.pair digest.list).tagged.iso (fun p => ⟨p.1, p.2⟩) (fun b => (b.topic, b.knownHeads))
    fun _ => rfl

def branchSyncReq : Codec BranchSyncReq :=
  (digest.list.pair (digest.list.pair bloomFilter)).tagged.iso (fun p => ⟨p.1, p.2.1, p.2.2⟩)
    (fun b => (b.heads, b.knownHeads, b.knownCommits)) fun _ => rfl

/-! ## Requests to the broker -/

def brokerRequestContent : Codec BrokerRequestContent :=
  union [⟨_, (pubKey.pair sig).tagged, fun p => .addUser p.1 p.2,
      fun | .addUser user sig => some (user, sig) | _ => none,
      fun a _ h => by cases a <;> cases h; rfl⟩,
    ⟨_, (pubKey.pair sig).tagged, fun p => .delUser p.1 p.2,
      fun | .delUser user sig => some (user, sig) | _ => none,
      fun a _ h => by cases a <;> cases h; rfl⟩,
    ⟨_, (pubKey.pair sig).tagged, fun p => .addClient p.1 p.2,
      fun | .addClient client sig => some (client, sig) | _ => none,
      fun a _ h => by cases a <;> cases h; rfl⟩,
    ⟨_, (pubKey.pair sig).tagged, fun p => .delClient p.1 p.2,
      fun | .delClient client sig => some (client, sig) | _ => none,
      fun a _ h => by cases a <;> cases h; rfl⟩]
    fun a => by cases a <;> simp

def brokerRequest : Codec BrokerRequest :=
  (u64.pair brokerRequestContent).tagged.iso (fun p => ⟨p.1, p.2⟩) (fun r => (r.id, r.content))
    fun _ => rfl

def brokerResponse : Codec BrokerResponse :=
  (u64.pair u16).tagged.iso (fun p => ⟨p.1, p.2⟩) (fun r => (r.id, r.result)) fun _ => rfl

/-! ## Requests to an overlay -/

def overlayJoin : Codec OverlayJoin :=
  (symKey.pair (pubKey.option.pair peerAdvert.list)).tagged.iso (fun p => ⟨p.1, p.2.1, p.2.2⟩)
    (fun j => (j.secret, j.repoPubkey, j.peers)) fun _ => rfl

def overlayStatusResp : Codec OverlayStatusResp :=
  (bool.pair peerAdvert.list).tagged.iso (fun p => ⟨p.1, p.2⟩) (fun r => (r.joined, r.peers))
    fun _ => rfl

def blockGet : Codec BlockGet :=
  (digest.pair (bool.pair pubKey.option)).tagged.iso (fun p => ⟨p.1, p.2.1, p.2.2⟩)
    (fun b => (b.id, b.includeChildren, b.topic)) fun _ => rfl

/-- The values of a type that are decoded, given what is serialized of a value. -/
abbrev Sent {α : Type} (onWire : α → α) : Type := {a : α // onWire a = a}

def block : Codec (Sent Block.onWire) :=
  blockBody.iso (fun body => ⟨{ body with id? := none, key := none }, rfl⟩)
  (fun b => b.1.toBlockBody)
    fun b => Subtype.ext b.2

/-- A variant of a union whose values are sent as they are. -/
def sentVariant {α β : Type} {onWire : α → α} (c : Codec β) (inj : β → α) (proj : α → Option β)
    (hinj : ∀ p, onWire (inj p) = inj p) (hproj : ∀ a p, proj a = some p → inj p = a) :
    Variant (Sent onWire) where
  Payload := β
  codec := c
  inj p := ⟨inj p, hinj p⟩
  proj a := proj a.1
  inj_of_proj a p h := Subtype.ext (hproj a.1 p h)

def overlayRequestContent : Codec (Sent BrokerOverlayRequestContent.onWire) :=
  union [sentVariant unit.tagged (fun _ => .overlayConnect)
    (fun | .overlayConnect => some () | _ => none)
      (fun _ => rfl) fun a _ h => by cases a <;> cases h; rfl,
    sentVariant unit.tagged (fun _ => .overlayStatusReq)
      (fun | .overlayStatusReq => some () | _ => none) (fun _ => rfl)
      fun a _ h => by cases a <;> cases h; rfl,
    sentVariant overlayJoin .overlayJoin (fun | .overlayJoin j => some j | _ => none) (fun _ => rfl)
      fun a _ h => by cases a <;> cases h; rfl,
    sentVariant unit.tagged (fun _ => .overlayLeave) (fun | .overlayLeave => some () | _ => none)
      (fun _ => rfl) fun a _ h => by cases a <;> cases h; rfl,
    sentVariant (pubKey.pair topicAdvert.option).tagged (fun p => .topicSub p.1 p.2)
      (fun | .topicSub topic advert => some (topic, advert) | _ => none) (fun _ => rfl)
      fun a _ h => by cases a <;> cases h; rfl,
    sentVariant pubKey.tagged .topicUnsub (fun | .topicUnsub topic => some topic | _ => none)
      (fun _ => rfl) fun a _ h => by cases a <;> cases h; rfl,
    sentVariant pubKey.tagged .topicConnect (fun | .topicConnect topic => some topic | _ => none)
      (fun _ => rfl) fun a _ h => by cases a <;> cases h; rfl,
    sentVariant pubKey.tagged .topicDisconnect
      (fun | .topicDisconnect topic => some topic | _ => none) (fun _ => rfl)
      fun a _ h => by cases a <;> cases h; rfl,
    sentVariant event .event (fun | .event e => some e | _ => none) (fun _ => rfl)
      fun a _ h => by cases a <;> cases h; rfl,
    sentVariant blockGet .blockGet (fun | .blockGet b => some b | _ => none) (fun _ => rfl)
      fun a _ h => by cases a <;> cases h; rfl,
    ⟨_, block.tagged, fun b => ⟨.blockPut b.1, congrArg _ b.2⟩,
      fun | ⟨.blockPut b, h⟩ => some ⟨b, BrokerOverlayRequestContent.blockPut.inj h⟩ | _ => none,
      fun a _ h => by
        obtain ⟨a, _⟩ := a
        cases a <;> cases h
        rfl⟩,
    sentVariant digest.tagged .objectPin (fun | .objectPin id => some id | _ => none) (fun _ => rfl)
      fun a _ h => by cases a <;> cases h; rfl,
    sentVariant digest.tagged .objectUnpin (fun | .objectUnpin id => some id | _ => none)
      (fun _ => rfl) fun a _ h => by cases a <;> cases h; rfl,
    sentVariant (digest.pair u32.option).tagged (fun p => .objectCopy p.1 p.2)
      (fun | .objectCopy id expiry => some (id, expiry) | _ => none) (fun _ => rfl)
      fun a _ h => by cases a <;> cases h; rfl,
    sentVariant digest.tagged .objectDel (fun | .objectDel id => some id | _ => none) (fun _ => rfl)
      fun a _ h => by cases a <;> cases h; rfl,
    sentVariant branchHeadsReq .branchHeadsReq (fun | .branchHeadsReq b => some b | _ => none)
      (fun _ => rfl) fun a _ h => by cases a <;> cases h; rfl,
    sentVariant branchSyncReq .branchSyncReq (fun | .branchSyncReq b => some b | _ => none)
      (fun _ => rfl) fun a _ h => by cases a <;> cases h; rfl]
    fun a => by
      obtain ⟨a, _⟩ := a
      cases a <;> simp [sentVariant]

def overlayRequest : Codec (Sent BrokerOverlayRequest.onWire) :=
  (u64.pair overlayRequestContent).tagged.iso
    (fun p => ⟨⟨p.1, p.2.1⟩, congrArg (BrokerOverlayRequest.mk p.1) p.2.2⟩)
    (fun r => (r.1.id, ⟨r.1.content, congrArg BrokerOverlayRequest.content r.2⟩)) fun _ => rfl

def overlayResponseContent : Codec (Sent BrokerOverlayResponseContent.onWire) :=
  union [⟨_, block, fun b => ⟨.block b.1, congrArg _ b.2⟩,
      fun | ⟨.block b, h⟩ => some ⟨b, BrokerOverlayResponseContent.block.inj h⟩ | _ => none,
      fun a _ h => by
        obtain ⟨a, _⟩ := a
        cases a <;> cases h
        rfl⟩,
    sentVariant digest .objectId (fun | .objectId id => some id | _ => none) (fun _ => rfl)
      fun a _ h => by cases a <;> cases h; rfl,
    sentVariant overlayStatusResp .overlayStatusResp
      (fun | .overlayStatusResp resp => some resp | _ => none) (fun _ => rfl)
      fun a _ h => by cases a <;> cases h; rfl]
    fun a => by
      obtain ⟨a, _⟩ := a
      cases a <;> simp [sentVariant]

def sentOption {α : Type} {onWire : α → α} :
    (a : Option α) → a.map onWire = a → Option (Sent onWire)
  | none, _ => none
  | some a, h => some ⟨a, Option.some.inj h⟩

def overlayResponse : Codec (Sent BrokerOverlayResponse.onWire) :=
  (u64.pair (u16.pair overlayResponseContent.option)).tagged.iso
    (fun p => ⟨⟨p.1, p.2.1, p.2.2.map Subtype.val⟩, by
      obtain ⟨id, result, content⟩ := p
      obtain _ | content := content
      · rfl
      · exact congrArg (fun c => BrokerOverlayResponse.mk id result (some c)) content.2⟩)
    (fun r => (r.1.id, r.1.result, sentOption r.1.content
      (congrArg BrokerOverlayResponse.content r.2)))
    fun r => by
      obtain ⟨⟨id, result, content⟩, h⟩ := r
      cases content <;> rfl

def overlayMessageContent : Codec (Sent BrokerOverlayMessageContent.onWire) :=
  union [⟨_, overlayRequest, fun r => ⟨.brokerOverlayRequest r.1, congrArg _ r.2⟩,
      fun
        | ⟨.brokerOverlayRequest r, h⟩ =>
          some ⟨r, BrokerOverlayMessageContent.brokerOverlayRequest.inj h⟩
        | _ => none,
      fun a _ h => by
        obtain ⟨a, _⟩ := a
        cases a <;> cases h
        rfl⟩,
    ⟨_, overlayResponse, fun r => ⟨.brokerOverlayResponse r.1, congrArg _ r.2⟩,
      fun
        | ⟨.brokerOverlayResponse r, h⟩ =>
          some ⟨r, BrokerOverlayMessageContent.brokerOverlayResponse.inj h⟩
        | _ => none,
      fun a _ h => by
        obtain ⟨a, _⟩ := a
        cases a <;> cases h
        rfl⟩,
    sentVariant event .event (fun | .event e => some e | _ => none) (fun _ => rfl)
      fun a _ h => by cases a <;> cases h; rfl]
    fun a => by
      obtain ⟨a, _⟩ := a
      cases a <;> simp [sentVariant]

def overlayMessage : Codec (Sent BrokerOverlayMessage.onWire) :=
  (digest.pair overlayMessageContent).tagged.iso
    (fun p => ⟨⟨p.1, p.2.1⟩, congrArg (BrokerOverlayMessage.mk p.1) p.2.2⟩)
    (fun m => (m.1.overlay, ⟨m.1.content, congrArg BrokerOverlayMessage.content m.2⟩)) fun _ => rfl

def messageContent : Codec (Sent BrokerMessageContent.onWire) :=
  union [sentVariant brokerRequest .brokerRequest (fun | .brokerRequest r => some r | _ => none)
      (fun _ => rfl) fun a _ h => by cases a <;> cases h; rfl,
    sentVariant brokerResponse .brokerResponse (fun | .brokerResponse r => some r | _ => none)
      (fun _ => rfl) fun a _ h => by cases a <;> cases h; rfl,
    ⟨_, overlayMessage, fun m => ⟨.brokerOverlayMessage m.1, congrArg _ m.2⟩,
      fun
        | ⟨.brokerOverlayMessage m, h⟩ =>
          some ⟨m, BrokerMessageContent.brokerOverlayMessage.inj h⟩
        | _ => none,
      fun a _ h => by
        obtain ⟨a, _⟩ := a
        cases a <;> cases h
        rfl⟩]
    fun a => by
      obtain ⟨a, _⟩ := a
      cases a <;> simp [sentVariant]

def message : Codec (Sent BrokerMessage.onWire) :=
  union [⟨_, messageContent.pair data, fun p =>
    ⟨.v0 p.1.1 p.2, congrArg (BrokerMessage.v0 · p.2) p.1.2⟩,
      fun
        | ⟨.v0 content padding, h⟩ => some (⟨content, (BrokerMessage.v0.inj h).1⟩, padding)
        | _ => none,
      fun a _ h => by
        obtain ⟨a, _⟩ := a
        cases a <;> cases h
        rfl⟩,
    sentVariant unit (fun _ => .close) (fun | .close => some () | _ => none) (fun _ => rfl)
      fun a _ h => by cases a <;> cases h; rfl]
    fun a => by
      obtain ⟨a, _⟩ := a
      cases a <;> simp [sentVariant]

/-! ## The encoding of a message -/

theorem onWire_onWire (m : BrokerMessage) : m.onWire.onWire = m.onWire := by
  obtain ⟨_ | _ | ⟨overlay, r | r | e⟩, padding⟩ | _ := m
  case v0.brokerOverlayMessage.brokerOverlayRequest =>
    obtain ⟨id, content⟩ := r
    cases content <;> rfl
  case v0.brokerOverlayMessage.brokerOverlayResponse =>
    obtain ⟨id, result, _ | content⟩ := r
    · rfl
    · cases content <;> rfl
  all_goals rfl

def brokerMessage : Serde BrokerMessage where
  toVec m := message.encode ⟨m.onWire, onWire_onWire m⟩
  fromSlice bytes := (message.fromBytes bytes).map Subtype.val

theorem wire_messageLaws (verify : Bytes → Sig → PubKey → Except LofireError Unit) :
    (wire brokerMessage verify).MessageLaws where
  roundTrips m := by
    change (message.fromBytes (message.encode ⟨m.onWire, onWire_onWire m⟩)).map Subtype.val = _
    rw [message.fromBytes_encode]
    rfl
  ne_nil m h := by
    have hm := message.decode_encode ⟨m.onWire, onWire_onWire m⟩ []
    rw [List.append_nil, show message.encode ⟨m.onWire, onWire_onWire m⟩ = [] from h] at hm
    cases hm

end Reference

end Lofire
