import Lofire.Net.Wire
import Lofire.Reference

/-!
# The encoding of the messages of a connection

The BARE encodings with which the network code is built, for concrete examples. The encoding of the
messages to a broker and the check of a signature are left open. A request of the `Ext` protocol is
encoded without its content, which no implemented function reads.
-/

namespace Lofire

open Lib Lib.Codec

namespace Reference

def startProtocol : Codec StartProtocol :=
  union [⟨_, unit.tagged, fun _ => .auth, fun | .auth => some () | _ => none,
      fun a _ h => by cases a <;> cases h; rfl⟩,
    Variant.const .ext]
    fun a => by cases a <;> simp [Variant.const]

def serverHello : Codec ServerHello := data.tagged.iso ServerHello.mk ServerHello.nonce fun _ => rfl

def clientAuthContent : Codec ClientAuthContentV0 :=
  (pubKey.pair (pubKey.pair data)).iso (fun p => ⟨p.1, p.2.1, p.2.2⟩)
    (fun c => (c.user, c.client, c.nonce)) fun _ => rfl

def clientAuth : Codec ClientAuth :=
  (clientAuthContent.pair sig).tagged.iso (fun p => ⟨p.1, p.2⟩)
  (fun a => (a.content, a.sig)) fun _ => rfl

def authResult : Codec AuthResult :=
  (u16.pair data).tagged.iso (fun p => ⟨p.1, p.2⟩) (fun r => (r.result, r.metadata)) fun _ => rfl

/-- The third-party functions of the network code, given the encoding of the messages to a broker
and the check of a signature. -/
def wire (brokerMessage : Serde BrokerMessage)
    (verify : Bytes → Sig → PubKey → Except LofireError Unit) : Wire where
  startProtocol := serde startProtocol
  serverHello := serde serverHello
  clientAuthContent := serde clientAuthContent
  clientAuth := serde clientAuth
  authResult := serde authResult
  addUserContent := serde pubKey
  brokerMessage := brokerMessage
  verify := verify

end Reference

end Lofire
