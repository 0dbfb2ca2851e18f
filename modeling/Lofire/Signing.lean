import Lofire.Net.Errors

/-!
# Signatures (`lofire/src/utils.rs`)

`sign` and `verify` over the Ed25519 of another package, which is the parameter `C : Ed25519`. What
the code relies on is that what is signed with a pair of keys is verified with its public key
(`Ed25519.Pair`); the code itself can not tell whether the two keys it is given are a pair.
-/

namespace Lofire

/-- Private key -/
structure PrivKey where
  ed25519PrivKey ::
  slice : Vector UInt8 32
  deriving DecidableEq

/-- The functions of `ed25519_dalek`, on the bytes of keys and signatures. -/
structure Ed25519 where
  /-- `Keypair::from_bytes(bytes)` succeeds. -/
  isKeypair : Bytes → Bool
  /-- `keypair.sign(content).to_bytes()` for the key pair with these bytes -/
  sign : (keypair content : Bytes) → Vector UInt8 64
  /-- `PublicKey::from_bytes(bytes)` succeeds. -/
  isPublicKey : Bytes → Bool
  /-- `Signature::from_bytes(bytes)` succeeds. -/
  isSignature : Bytes → Bool
  /-- `pk.verify_strict(content, sig)` succeeds. -/
  verifyStrict : (pk content sig : Bytes) → Bool

/-- The two chunks of 32 bytes of a signature. -/
def Sig.ofBytes (bytes : Vector UInt8 64) : Sig :=
  ⟨(.ofFn fun i => bytes[i.val], .ofFn fun i => bytes[32 + i.val])⟩

/-- `[ss[0], ss[1]].concat()` -/
def Sig.concat (sig : Sig) : Bytes := sig.halves.1.toList ++ sig.halves.2.toList

@[simp] theorem Sig.concat_ofBytes (bytes : Vector UInt8 64) :
    (Sig.ofBytes bytes).concat = bytes.toList := by
  unfold concat ofBytes
  apply List.ext_getElem
  · simp
  · intro i h _
    simp only [Vector.toList_ofFn, List.length_append, List.length_ofFn] at h
    by_cases hi : i < 32
    · simp [hi]
    · have hsum : 32 + (i - 32) = i := by omega
      simp [List.getElem_append, hi, hsum]

namespace Ed25519

variable (C : Ed25519)

/-- The bytes of a key pair. -/
def keypair (privKey : PrivKey) (pubKey : PubKey) : Bytes :=
  privKey.slice.toList ++ pubKey.slice.toList

/-- `lofire::utils::sign` -/
def signContent (authorPrivkey : PrivKey) (authorPubkey : PubKey) (content : Bytes) :
    Except LofireError Sig :=
  let kp := keypair authorPrivkey authorPubkey
  if C.isKeypair kp then .ok (.ofBytes (C.sign kp content)) else .error .invalidSignature

/-- `lofire::utils::verify` -/
def verify (content : Bytes) (sig : Sig) (pubKey : PubKey) : Except LofireError Unit :=
  if !C.isPublicKey pubKey.slice.toList then .error .invalidSignature
  else if !C.isSignature sig.concat then .error .invalidSignature
  else if C.verifyStrict pubKey.slice.toList content sig.concat then .ok ()
  else .error .invalidSignature

/-- The keys belong together. -/
structure Pair (privKey : PrivKey) (pubKey : PubKey) : Prop where
  isKeypair : C.isKeypair (keypair privKey pubKey) = true
  isPublicKey : C.isPublicKey pubKey.slice.toList = true
  isSignature : ∀ content, C.isSignature (C.sign (keypair privKey pubKey) content).toList = true
  verifyStrict : ∀ content, C.verifyStrict pubKey.slice.toList content
    (C.sign (keypair privKey pubKey) content).toList = true

variable {C}

/-- What is signed with a pair of keys is verified. -/
theorem Pair.verify_ofBytes {privKey : PrivKey} {pubKey : PubKey} (h : C.Pair privKey pubKey)
    (content : Bytes) :
    C.verify content (.ofBytes (C.sign (keypair privKey pubKey) content)) pubKey = .ok () := by
  unfold verify
  rw [Sig.concat_ofBytes, h.isPublicKey, h.isSignature, h.verifyStrict]
  rfl

theorem Pair.verify_sign {privKey : PrivKey} {pubKey : PubKey} (h : C.Pair privKey pubKey)
    (content : Bytes) : ∃ sig, C.signContent privKey pubKey content = .ok sig ∧
      C.verify content sig pubKey = .ok () :=
  ⟨_, if_pos h.isKeypair, h.verify_ofBytes content⟩

theorem verify_eq_ok_iff {content : Bytes} {sig : Sig} {pubKey : PubKey} :
    C.verify content sig pubKey = .ok () ↔ C.isPublicKey pubKey.slice.toList = true ∧
      C.isSignature sig.concat = true ∧
      C.verifyStrict pubKey.slice.toList content sig.concat = true := by
  unfold verify
  cases C.isPublicKey pubKey.slice.toList <;> cases C.isSignature sig.concat <;>
    cases C.verifyStrict pubKey.slice.toList content sig.concat <;> simp

end Ed25519

end Lofire
