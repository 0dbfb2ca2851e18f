import Lofire.Block
import Lofire.Net.Errors
import Lofire.Net.Types

/-!
# Messages of the start of a connection, and their encoding

The messages with which a client authenticates (`lofire-net/src/types.rs`), and what the network
code takes from other packages: the `serde_bare` encoding of the messages and the check of a
signature (`lofire/src/utils.rs`). They are the parameter `W : Wire` of the development.
-/

namespace Lofire

/-- Start chosen protocol: first message sent by the client. An `ExtRequest` is not read by any
implemented function. -/
inductive StartProtocol
  | auth
  | ext
  deriving DecidableEq

/-- Server hello sent upon a client connection -/
structure ServerHello where
  nonce : Bytes
  deriving DecidableEq

/-- Content of ClientAuthV0 -/
structure ClientAuthContentV0 where
  user : PubKey
  client : PubKey
  nonce : Bytes
  deriving DecidableEq

/-- Client authentication -/
structure ClientAuth where
  content : ClientAuthContentV0
  sig : Sig
  deriving DecidableEq

namespace ClientAuth

def user (m : ClientAuth) : PubKey := m.content.user

def nonce (m : ClientAuth) : Bytes := m.content.nonce

end ClientAuth

/-- Authentication result -/
structure AuthResult where
  result : UInt16
  metadata : Bytes
  deriving DecidableEq

/-! ## What is serialized of a message -/

/-- The id and the key of a block are not sent. -/
def Block.onWire (b : Block) : Block := { b with id? := none, key := none }

def BrokerOverlayRequestContent.onWire : BrokerOverlayRequestContent → BrokerOverlayRequestContent
  | .blockPut b => .blockPut b.onWire
  | content => content

def BrokerOverlayRequest.onWire (r : BrokerOverlayRequest) : BrokerOverlayRequest :=
  { r with content := r.content.onWire }

def BrokerOverlayResponseContent.onWire :
    BrokerOverlayResponseContent → BrokerOverlayResponseContent
  | .block b => .block b.onWire
  | content => content

def BrokerOverlayResponse.onWire (r : BrokerOverlayResponse) : BrokerOverlayResponse :=
  { r with content := r.content.map BrokerOverlayResponseContent.onWire }

def BrokerOverlayMessageContent.onWire : BrokerOverlayMessageContent → BrokerOverlayMessageContent
  | .brokerOverlayRequest r => .brokerOverlayRequest r.onWire
  | .brokerOverlayResponse r => .brokerOverlayResponse r.onWire
  | .event e => .event e

def BrokerOverlayMessage.onWire (m : BrokerOverlayMessage) : BrokerOverlayMessage :=
  { m with content := m.content.onWire }

def BrokerMessageContent.onWire : BrokerMessageContent → BrokerMessageContent
  | .brokerOverlayMessage m => .brokerOverlayMessage m.onWire
  | content => content

/-- What a message is decoded to. -/
def BrokerMessage.onWire : BrokerMessage → BrokerMessage
  | v0 content padding => v0 content.onWire padding
  | close => close

/-- The third-party functions the network code calls. -/
structure Wire where
  startProtocol : Serde StartProtocol
  serverHello : Serde ServerHello
  clientAuthContent : Serde ClientAuthContentV0
  clientAuth : Serde ClientAuth
  authResult : Serde AuthResult
  addUserContent : Serde PubKey
  brokerMessage : Serde BrokerMessage
  /-- `verify(content, sig, pub_key)` -/
  verify : Bytes → Sig → PubKey → Except LofireError Unit

/-- `serde_bare` decodes a message to a broker, without the fields that are not serialized, and
encodes it with its tag. -/
structure Wire.MessageLaws (W : Wire) : Prop where
  roundTrips : ∀ m, W.brokerMessage.fromSlice (W.brokerMessage.toVec m) = some m.onWire
  ne_nil : ∀ m, W.brokerMessage.toVec m ≠ []

theorem Block.toVec_onWire (P : Primitives) (b : Block) : b.onWire.toVec P = b.toVec P := rfl

end Lofire
