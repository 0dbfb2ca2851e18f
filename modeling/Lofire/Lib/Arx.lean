import Mathlib.Data.Vector.Basic

/-!
# BLAKE3 and ChaCha20

Two functions built from additions, rotations and exclusive ors on words of 32 bits. A word is a
natural number below `2 ^ 32`, and a state of 16 words is four rows of four.
-/

namespace Lofire.Lib.Arx

/-! ## Words and rows -/

def add (x y : Nat) : Nat := (x + y) % 4294967296

def rotateRight (x k : Nat) : Nat := (x >>> k) ||| ((x <<< (32 - k)) % 4294967296)

/-- Four words. -/
structure Row where
  (a b c d : Nat)

namespace Row

def map (f : Nat → Nat) (r : Row) : Row := ⟨f r.a, f r.b, f r.c, f r.d⟩

def zipWith (f : Nat → Nat → Nat) (r s : Row) : Row := ⟨f r.a s.a, f r.b s.b, f r.c s.c, f r.d s.d⟩

/-- The words of a row, moved one, two or three places to the left. -/
def rotate1 (r : Row) : Row := ⟨r.b, r.c, r.d, r.a⟩
def rotate2 (r : Row) : Row := ⟨r.c, r.d, r.a, r.b⟩
def rotate3 (r : Row) : Row := ⟨r.d, r.a, r.b, r.c⟩

def toList (r : Row) : List Nat := [r.a, r.b, r.c, r.d]

def zero : Row := ⟨0, 0, 0, 0⟩

end Row

structure State where
  (r₀ r₁ r₂ r₃ : Row)

namespace State

/-- Half of the mixing function on all four columns, with a row of message words. -/
def mix (m : Row) (k₃ k₁ : Nat) (s : State) : State :=
  let r₀ := (s.r₀.zipWith add s.r₁).zipWith add m
  let r₃ := (s.r₃.zipWith Nat.xor r₀).map (rotateRight · k₃)
  let r₂ := s.r₂.zipWith add r₃
  let r₁ := (s.r₁.zipWith Nat.xor r₂).map (rotateRight · k₁)
  ⟨r₀, r₁, r₂, r₃⟩

/-- The diagonals become columns. -/
def diagonalize (s : State) : State := ⟨s.r₀, s.r₁.rotate1, s.r₂.rotate2, s.r₃.rotate3⟩

def undiagonalize (s : State) : State := ⟨s.r₀, s.r₁.rotate3, s.r₂.rotate2, s.r₃.rotate1⟩

def toList (s : State) : List Nat :=
  s.r₀.toList ++ s.r₁.toList ++ s.r₂.toList ++ s.r₃.toList

end State

def rowOf (w : List Nat) (i : Nat) : Row :=
  ⟨w.getD i 0, w.getD (i + 1) 0, w.getD (i + 2) 0, w.getD (i + 3) 0⟩

/-- A word from its bytes, the lowest first. -/
def ofBytes : List UInt8 → Nat
  | [] => 0
  | b :: bytes => b.toNat + 256 * ofBytes bytes

/-- The first `n` words of a message that is filled up with zeros. -/
def words : Nat → List UInt8 → List Nat
  | 0, _ => []
  | n + 1, bytes => ofBytes (bytes.take 4) :: words n (bytes.drop 4)

def bytesOf (w : Nat) : List UInt8 :=
  [UInt8.ofNat w, UInt8.ofNat (w >>> 8), UInt8.ofNat (w >>> 16), UInt8.ofNat (w >>> 24)]

/-- The first `n` bytes of a list that is filled up with zeros. -/
def firstBytes (n : Nat) (bytes : List UInt8) : Vector UInt8 n :=
  ⟨((bytes ++ List.replicate n 0).take n).toArray, by simp⟩

/-! ## BLAKE3 -/

namespace Blake3

def iv : List Nat :=
  [0x6A09E667, 0xBB67AE85, 0x3C6EF372, 0xA54FF53A, 0x510E527F, 0x9B05688C, 0x1F83D9AB, 0x5BE0CD19]

def CHUNK_START : Nat := 1
def CHUNK_END : Nat := 2
def PARENT : Nat := 4
def ROOT : Nat := 8
def KEYED_HASH : Nat := 16
def DERIVE_KEY_CONTEXT : Nat := 32
def DERIVE_KEY_MATERIAL : Nat := 64

/-- The message words a round mixes into the columns and into the diagonals. -/
def round (m : List Nat) (s : State) : State :=
  let w := fun i => m.getD i 0
  let s := s.mix ⟨w 0, w 2, w 4, w 6⟩ 16 12
  let s := s.mix ⟨w 1, w 3, w 5, w 7⟩ 8 7
  let s := s.diagonalize
  let s := s.mix ⟨w 8, w 10, w 12, w 14⟩ 16 12
  let s := s.mix ⟨w 9, w 11, w 13, w 15⟩ 8 7
  s.undiagonalize

def permutation : List Nat := [2, 6, 3, 10, 7, 0, 4, 13, 1, 11, 12, 5, 9, 14, 15, 8]

def rounds : Nat → List Nat → State → State
  | 0, _, s => s
  | n + 1, m, s => rounds n (permutation.map fun i => m.getD i 0) (round m s)

/-- A compression that is still to be done: the root is compressed with another flag. -/
structure Output where
  cv : List Nat
  block : List Nat
  counter : Nat
  blockLen : Nat
  flags : Nat

def Output.compress (o : Output) (flags : Nat) : List Nat :=
  let s := rounds 7 o.block ⟨rowOf o.cv 0, rowOf o.cv 4, rowOf iv 0,
    ⟨o.counter % 4294967296, o.counter / 4294967296, o.blockLen, o.flags ||| flags⟩⟩
  (s.r₀.zipWith Nat.xor s.r₂).toList ++ (s.r₁.zipWith Nat.xor s.r₃).toList

/-- The blocks of one chunk; the first argument bounds their number. -/
def chunk (flags counter : Nat) : Nat → List Nat → List UInt8 → Nat → Output
  | 0, cv, _, _ => ⟨cv, [], counter, 0, flags⟩
  | fuel + 1, cv, bytes, start =>
    if bytes.length ≤ 64 then
      ⟨cv, words 16 bytes, counter, bytes.length, flags ||| start ||| CHUNK_END⟩
    else
      let o : Output := ⟨cv, words 16 (bytes.take 64), counter, 64, flags ||| start⟩
      chunk flags counter fuel (o.compress 0) (bytes.drop 64) 0

/-- The tree over the chunks of a message; the first argument bounds its height. The left subtree
is the largest full one that leaves at least one chunk to the right. -/
def tree (key : List Nat) (flags : Nat) : Nat → List UInt8 → Nat → Output
  | 0, bytes, counter => chunk flags counter 16 key bytes CHUNK_START
  | fuel + 1, bytes, counter =>
    if bytes.length ≤ 1024 then chunk flags counter 16 key bytes CHUNK_START
    else
      let left := 2 ^ ((bytes.length - 1) / 1024).log2
      let l := (tree key flags fuel (bytes.take (left * 1024)) counter).compress 0
      let r := (tree key flags fuel (bytes.drop (left * 1024)) (counter + left)).compress 0
      ⟨key, l ++ r, 0, 64, flags ||| PARENT⟩

def digest (key : List Nat) (flags : Nat) (bytes : List UInt8) : Vector UInt8 32 :=
  firstBytes 32 (((tree key flags 54 bytes 0).compress ROOT).flatMap bytesOf)

def hash (bytes : List UInt8) : Vector UInt8 32 := digest iv 0 bytes

def keyedHash (key : Vector UInt8 32) (bytes : List UInt8) : Vector UInt8 32 :=
  digest (words 8 key.toList) KEYED_HASH bytes

def deriveKey (context : String) (material : List UInt8) : Vector UInt8 32 :=
  let key := digest iv DERIVE_KEY_CONTEXT context.toUTF8.data.toList
  digest (words 8 key.toList) DERIVE_KEY_MATERIAL material

end Blake3

/-! ## ChaCha20 -/

namespace ChaCha20

def rounds : Nat → State → State
  | 0, s => s
  | n + 1, s =>
    let s := (s.mix Row.zero 16 20).mix Row.zero 24 25
    let s := (s.diagonalize.mix Row.zero 16 20).mix Row.zero 24 25
    rounds n s.undiagonalize

/-- One block of the keystream for the nonce 0. -/
def block (key : List Nat) (counter : Nat) : List UInt8 :=
  let s : State := ⟨⟨0x61707865, 0x3320646E, 0x79622D32, 0x6B206574⟩, rowOf key 0, rowOf key 4,
    ⟨counter, 0, 0, 0⟩⟩
  (List.zipWith add (rounds 10 s).toList s.toList).flatMap bytesOf

def blocks (key : List Nat) : Nat → Nat → List UInt8
  | 0, _ => []
  | n + 1, counter => block key counter ++ blocks key n (counter + 1)

/-- The first `n` bytes of the keystream for the nonce 0. -/
def keystream (key : Vector UInt8 32) (n : Nat) : Vector UInt8 n :=
  firstBytes n (blocks (words 8 key.toList) ((n + 63) / 64) 0)

end ChaCha20

end Lofire.Lib.Arx
