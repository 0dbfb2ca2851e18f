import Lofire.Lib.Arx
import Lofire.Lib.Bare
import Lofire.Primitives

/-!
# The reference primitives

`reference` are the primitives the repository is built with: BLAKE3, ChaCha20 and the BARE encoding
of the types of `types.rs`. The theorems about objects hold for any primitives with the stated laws;
this instance has them, and concrete examples are computed with it.
-/

namespace Lofire

open Lib Lib.Codec

namespace Reference

/-! ## Codecs of the types -/

def bytes32 : Codec (Vector UInt8 32) := byte.array 32

/-- `Vec<u8>` -/
def data : Codec Bytes := byte.list

def digest : Codec Digest :=
  bytes32.tagged.iso Digest.blake3Digest32 Digest.bytes fun _ => rfl

def symKey : Codec SymKey := bytes32.tagged.iso SymKey.chaCha20Key SymKey.slice fun _ => rfl

def pubKey : Codec PubKey := bytes32.tagged.iso PubKey.ed25519PubKey PubKey.slice fun _ => rfl

def sig : Codec Sig := (bytes32.pair bytes32).tagged.iso Sig.ed25519Sig Sig.halves fun _ => rfl

def blockRef : Codec BlockRef :=
  (digest.pair symKey).iso (fun p => ⟨p.1, p.2⟩) (fun r => (r.id, r.key)) fun _ => rfl

def objectDeps : Codec ObjectDeps :=
  union [⟨_, digest.list, .objectIdList, fun | .objectIdList ids => some ids | _ => none,
      fun a _ h => by cases a <;> cases h; rfl⟩,
    ⟨_, blockRef, .depListRef, fun | .depListRef r => some r | _ => none,
      fun a _ h => by cases a <;> cases h; rfl⟩]
    fun a => by cases a <;> simp

def blockBody : Codec BlockBody :=
  (digest.list.pair (objectDeps.pair (u32.option.pair data))).tagged.iso
    (fun p => ⟨p.1, p.2.1, p.2.2.1, p.2.2.2⟩)
    (fun b => (b.children, b.deps, b.expiry, b.content)) fun _ => rfl

def blockContent : Codec BlockContentV0 :=
  union [⟨_, symKey.list, .internalNode, fun | .internalNode keys => some keys | _ => none,
      fun a _ h => by cases a <;> cases h; rfl⟩,
    ⟨_, data, .dataChunk, fun | .dataChunk chunk => some chunk | _ => none,
      fun a _ h => by cases a <;> cases h; rfl⟩]
    fun a => by cases a <;> simp

def relTime : Codec RelTime :=
  union [⟨_, byte, .seconds, fun | .seconds n => some n | _ => none,
      fun a _ h => by cases a <;> cases h; rfl⟩,
    ⟨_, byte, .minutes, fun | .minutes n => some n | _ => none,
      fun a _ h => by cases a <;> cases h; rfl⟩,
    ⟨_, byte, .hours, fun | .hours n => some n | _ => none,
      fun a _ h => by cases a <;> cases h; rfl⟩,
    ⟨_, byte, .days, fun | .days n => some n | _ => none,
      fun a _ h => by cases a <;> cases h; rfl⟩]
    fun a => by cases a <;> simp

def commitType : Codec CommitType :=
  union ([.repository, .addBranch, .removeBranch, .branch, .addMembers, .endOfBranch, .transaction,
      .snapshot, .ack].map Variant.const)
    fun a => ⟨Variant.const a, List.mem_map_of_mem (by cases a <;> simp), Variant.const_proj a⟩

def repository : Codec Repository :=
  (pubKey.pair (blockRef.list.pair (bool.pair data))).tagged.iso
    (fun p => ⟨p.1, p.2.1, p.2.2.1, p.2.2.2⟩)
    (fun r => (r.id, r.branches, r.allowExtRequests, r.metadata)) fun _ => rfl

def member : Codec Member :=
  (pubKey.pair (commitType.list.pair data)).iso (fun p => ⟨p.1, p.2.1, p.2.2⟩)
    (fun m => (m.id, m.commitTypes, m.metadata)) fun _ => rfl

/-- The entries that remain when a map is filled in order: the last value of every key. -/
def lastOfKeys (entries : List (CommitType × UInt32)) : List (CommitType × UInt32) :=
  entries.foldr (fun e kept => if e.1 ∈ kept.map Prod.fst then kept else e :: kept) []

theorem lastOfKeys_nodup (entries : List (CommitType × UInt32)) :
    ((lastOfKeys entries).map Prod.fst).Nodup := by
  induction entries with
  | nil => exact List.nodup_nil
  | cons e entries ih =>
    simp only [lastOfKeys, List.foldr_cons] at ih ⊢
    split
    · exact ih
    · rename_i hnot
      rw [List.map_cons, List.nodup_cons]
      exact ⟨hnot, ih⟩

theorem lastOfKeys_of_nodup {entries : List (CommitType × UInt32)}
    (h : (entries.map Prod.fst).Nodup) : lastOfKeys entries = entries := by
  induction entries with
  | nil => rfl
  | cons e entries ih =>
    rw [List.map_cons, List.nodup_cons] at h
    have ih := ih h.2
    simp only [lastOfKeys, List.foldr_cons] at ih ⊢
    rw [ih, if_neg h.1]

def quorum : Codec Quorum :=
  (commitType.pair u32).list.iso (fun l => ⟨lastOfKeys l, lastOfKeys_nodup l⟩) Quorum.entries
    fun q => by
      have h := lastOfKeys_of_nodup q.nodupKeys
      cases q
      simp only [Quorum.mk.injEq]
      exact h

def branch : Codec Branch :=
  (pubKey.pair (pubKey.pair (symKey.pair (member.list.pair (quorum.pair (relTime.pair
    (data.pair data))))))).tagged.iso
    (fun p => ⟨p.1, p.2.1, p.2.2.1, p.2.2.2.1, p.2.2.2.2.1, p.2.2.2.2.2.1, p.2.2.2.2.2.2.1,
      p.2.2.2.2.2.2.2⟩)
    (fun b => (b.id, b.topic, b.secret, b.members, b.quorum, b.ackDelay, b.tags, b.metadata))
    fun _ => rfl

def addMembers : Codec AddMembers :=
  (member.list.pair (quorum.option.pair relTime.option)).tagged.iso
    (fun p => ⟨p.1, p.2.1, p.2.2⟩) (fun a => (a.members, a.quorum, a.ackDelay)) fun _ => rfl

def plainOrEncryptedObjectRef : Codec PlainOrEncryptedObjectRef :=
  union [⟨_, blockRef, .plain, fun | .plain r => some r | _ => none,
      fun a _ h => by cases a <;> cases h; rfl⟩,
    ⟨_, data, .encrypted, fun | .encrypted bytes => some bytes | _ => none,
      fun a _ h => by cases a <;> cases h; rfl⟩]
    fun a => by cases a <;> simp

def endOfBranch : Codec EndOfBranch :=
  (plainOrEncryptedObjectRef.option.pair u32).tagged.iso (fun p => ⟨p.1, p.2⟩)
    (fun e => (e.fork, e.expiry)) fun _ => rfl

def snapshot : Codec Snapshot :=
  (digest.list.pair data).tagged.iso (fun p => ⟨p.1, p.2⟩) (fun s => (s.heads, s.content))
    fun _ => rfl

def commitBody : Codec CommitBody :=
  union [⟨_, repository, .repository, fun | .repository r => some r | _ => none,
      fun a _ h => by cases a <;> cases h; rfl⟩,
    ⟨_, blockRef.tagged, .addBranch, fun | .addBranch r => some r | _ => none,
      fun a _ h => by cases a <;> cases h; rfl⟩,
    ⟨_, blockRef.tagged, .removeBranch, fun | .removeBranch r => some r | _ => none,
      fun a _ h => by cases a <;> cases h; rfl⟩,
    ⟨_, branch, .branch, fun | .branch b => some b | _ => none,
      fun a _ h => by cases a <;> cases h; rfl⟩,
    ⟨_, addMembers, .addMembers, fun | .addMembers m => some m | _ => none,
      fun a _ h => by cases a <;> cases h; rfl⟩,
    ⟨_, endOfBranch, .endOfBranch, fun | .endOfBranch e => some e | _ => none,
      fun a _ h => by cases a <;> cases h; rfl⟩,
    ⟨_, data.tagged, .transaction, fun | .transaction bytes => some bytes | _ => none,
      fun a _ h => by cases a <;> cases h; rfl⟩,
    ⟨_, snapshot, .snapshot, fun | .snapshot s => some s | _ => none,
      fun a _ h => by cases a <;> cases h; rfl⟩,
    ⟨_, unit.tagged, fun _ => .ack, fun | .ack => some () | _ => none,
      fun a _ h => by cases a <;> cases h; rfl⟩]
    fun a => by cases a <;> simp

def commitContent : Codec CommitContentV0 :=
  (pubKey.pair (u32.pair (blockRef.pair (blockRef.list.pair (blockRef.list.pair (blockRef.list.pair
    (data.pair (blockRef.pair u32.option)))))))).iso
    (fun p => ⟨p.1, p.2.1, p.2.2.1, p.2.2.2.1, p.2.2.2.2.1, p.2.2.2.2.2.1, p.2.2.2.2.2.2.1,
      p.2.2.2.2.2.2.2.1, p.2.2.2.2.2.2.2.2⟩)
    (fun c => (c.author, c.seq, c.branch, c.deps, c.acks, c.refs, c.metadata, c.body, c.expiry))
    fun _ => rfl

def file : Codec File :=
  (data.pair (data.pair data)).tagged.iso (fun p => ⟨p.1, p.2.1, p.2.2⟩)
    (fun f => (f.contentType, f.metadata, f.content)) fun _ => rfl

/-- The serialized part of an object content: a commit without its id and key. -/
inductive ContentWire
  | commit (content : CommitContentV0) (sig : Sig)
  | commitBody (body : CommitBody)
  | file (file : File)
  | depList (ids : List ObjectId)

def ContentWire.of : ObjectContent → ContentWire
  | .commit c => .commit c.content c.sig
  | .commitBody b => .commitBody b
  | .file f => .file f
  | .depList ids => .depList ids

def ContentWire.toContent : ContentWire → ObjectContent
  | .commit content sig => .commit ⟨none, none, content, sig⟩
  | .commitBody b => .commitBody b
  | .file f => .file f
  | .depList ids => .depList ids

def contentWire : Codec ContentWire :=
  union [⟨_, (commitContent.pair sig).tagged, fun p => .commit p.1 p.2,
      fun | .commit c s => some (c, s) | _ => none, fun a _ h => by cases a <;> cases h; rfl⟩,
    ⟨_, commitBody, .commitBody, fun | .commitBody b => some b | _ => none,
      fun a _ h => by cases a <;> cases h; rfl⟩,
    ⟨_, file, .file, fun | .file f => some f | _ => none,
      fun a _ h => by cases a <;> cases h; rfl⟩,
    ⟨_, digest.list.tagged, .depList, fun | .depList ids => some ids | _ => none,
      fun a _ h => by cases a <;> cases h; rfl⟩]
    fun a => by cases a <;> simp

/-! ## The primitives -/

/-- `to_vec` and `from_slice` of a codec. -/
def serde {α : Type} (c : Codec α) : Serde α := ⟨c.encode, c.fromBytes⟩

theorem serde_roundTrips {α : Type} (c : Codec α) (a : α) : (serde c).RoundTrips a :=
  c.fromBytes_encode a

def objectContent : Serde ObjectContent where
  toVec c := contentWire.encode (.of c)
  fromSlice bytes := (contentWire.fromBytes bytes).map ContentWire.toContent

end Reference

/-- The primitives the repository is built with; the Bloom filter test is left open. -/
def reference (bloomContains : BloomFilter → Blake3Digest32 → Bool) : Primitives where
  hash := Arx.Blake3.hash
  keyedHash := Arx.Blake3.keyedHash
  deriveKey := Arx.Blake3.deriveKey
  keystream := Arx.ChaCha20.keystream
  blockBody := Reference.serde Reference.blockBody
  blockContent := Reference.serde Reference.blockContent
  objectContent := Reference.objectContent
  bloomContains := bloomContains

namespace Reference

variable {bloom : BloomFilter → Blake3Digest32 → Bool}

theorem serdeLaws : (reference bloom).SerdeLaws where
  blockBody := serde_roundTrips blockBody
  blockContent := serde_roundTrips blockContent
  objectContent_ne_nil c := by
    cases c <;> simp [reference, objectContent, ContentWire.of, contentWire, union, encodeVariant,
      uint, encodeUint]

/-- Every content is decoded back, a commit without its id and key. -/
theorem decodes_iff (c : ObjectContent) :
    (reference bloom).objectContent.fromSlice ((reference bloom).objectContent.toVec c) =
      some (ContentWire.of c).toContent := by
  simp only [reference, objectContent]
  rw [contentWire.fromBytes_encode]
  rfl

theorem decodes {c : ObjectContent} (h : (ContentWire.of c).toContent = c) :
    (reference bloom).Decodes c := by
  refine ⟨c, ?_, Setoid.refl c⟩
  rw [decodes_iff, h]

end Reference

end Lofire
