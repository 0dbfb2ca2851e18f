import Mathlib.Data.List.Basic
import Mathlib.Data.Nat.Log
import Mathlib.Data.Vector.Basic

/-!
# BARE encoding

Codecs for the binary encoding BARE, built from parts. A `Codec` carries the proof that decoding
undoes encoding and leaves the bytes that follow. Integers are little endian, lengths and the tags
of unions are variable-length integers of 7 bits a byte, and a union is a list of `Variant`s that
covers its type.
-/

namespace Lofire.Lib

/-- An encoding of `α` in bytes that can be decoded in front of any other bytes. -/
structure Codec (α : Type) where
  encode : α → List UInt8
  decode : List UInt8 → Option (α × List UInt8)
  decode_encode : ∀ a rest, decode (encode a ++ rest) = some (a, rest)

namespace Codec

variable {α β : Type}

/-- Decoding a whole message; bytes that follow are ignored. -/
def fromBytes (c : Codec α) (bytes : List UInt8) : Option α := (c.decode bytes).map Prod.fst

theorem fromBytes_encode (c : Codec α) (a : α) : c.fromBytes (c.encode a) = some a := by
  have := c.decode_encode a []
  rw [List.append_nil] at this
  rw [fromBytes, this]
  rfl

/-- No encoding is the beginning of another one. -/
theorem encode_append_inj (c : Codec α) {a b : α} {rest rest' : List UInt8}
    (h : c.encode a ++ rest = c.encode b ++ rest') : a = b ∧ rest = rest' := by
  have ha := c.decode_encode a rest
  rw [h, c.decode_encode b rest'] at ha
  obtain ⟨hab, hrest⟩ := Prod.mk.inj (Option.some.inj ha)
  exact ⟨hab.symm, hrest.symm⟩

theorem encode_inj (c : Codec α) {a b : α} (h : c.encode a = c.encode b) : a = b :=
  (c.encode_append_inj (congrArg (· ++ []) h)).1

/-! ## Isomorphic types, pairs and lists -/

/-- A codec for `β` from one for `α`; `f` may refuse what it cannot represent. -/
def imap (c : Codec α) (f : α → Option β) (g : β → α) (h : ∀ b, f (g b) = some b) : Codec β where
  encode b := c.encode (g b)
  decode bytes := (c.decode bytes).bind fun p => (f p.1).map fun b => (b, p.2)
  decode_encode b rest := by simp [c.decode_encode, h]

/-- `imap` with a total function. -/
def iso (c : Codec α) (f : α → β) (g : β → α) (h : ∀ b, f (g b) = b) : Codec β :=
  c.imap (fun a => some (f a)) g fun b => congrArg some (h b)

def unit : Codec Unit where
  encode _ := []
  decode bytes := some ((), bytes)
  decode_encode _ _ := rfl

def byte : Codec UInt8 where
  encode b := [b]
  decode
    | [] => none
    | b :: rest => some (b, rest)
  decode_encode _ _ := rfl

def pair (c : Codec α) (d : Codec β) : Codec (α × β) where
  encode p := c.encode p.1 ++ d.encode p.2
  decode bytes := (c.decode bytes).bind fun p => (d.decode p.2).map fun q => ((p.1, q.1), q.2)
  decode_encode p rest := by simp [List.append_assoc, c.decode_encode, d.decode_encode]

/-- `n` values one after the other. -/
def decodeN (c : Codec α) : Nat → List UInt8 → Option (List α × List UInt8)
  | 0, bytes => some ([], bytes)
  | n + 1, bytes =>
    (c.decode bytes).bind fun p => (decodeN c n p.2).map fun q => (p.1 :: q.1, q.2)

theorem decodeN_flatMap (c : Codec α) (l : List α) (rest : List UInt8) :
    c.decodeN l.length (l.flatMap c.encode ++ rest) = some (l, rest) := by
  induction l with
  | nil => rfl
  | cons a l ih => simp [decodeN, List.append_assoc, c.decode_encode, ih]

theorem length_of_decodeN (c : Codec α) {n : Nat} {bytes : List UInt8} {l : List α}
    {rest : List UInt8} (h : c.decodeN n bytes = some (l, rest)) : l.length = n := by
  induction n generalizing bytes l rest with
  | zero =>
    cases h
    rfl
  | succ n ih =>
    obtain ⟨p, -, h⟩ := Option.bind_eq_some_iff.mp h
    obtain ⟨⟨l', rest'⟩, hq, h⟩ := Option.map_eq_some_iff.mp h
    cases h
    rw [List.length_cons, ih hq]

/-- An array of `n` values. -/
def array (c : Codec α) (n : Nat) : Codec (Vector α n) where
  encode v := v.toList.flatMap c.encode
  decode bytes :=
    match h : c.decodeN n bytes with
    | none => none
    | some (l, rest) => some (⟨l.toArray, c.length_of_decodeN h⟩, rest)
  decode_encode v rest := by
    have h : c.decodeN n (v.toList.flatMap c.encode ++ rest) = some (v.toList, rest) := by
      have := c.decodeN_flatMap v.toList rest
      rwa [Vector.length_toList] at this
    split
    · rename_i h'
      rw [h] at h'
      cases h'
    · rename_i l rest' h'
      rw [h] at h'
      cases h'
      simp [Vector.toList]

/-! ## Integers -/

/-- The `k` low bytes of `n`, the lowest first. -/
def natLE : Nat → Nat → List UInt8
  | 0, _ => []
  | k + 1, n => UInt8.ofNat n :: natLE k (n / 256)

def ofLE : List UInt8 → Nat
  | [] => 0
  | b :: bytes => b.toNat + 256 * ofLE bytes

theorem natLE_length (k n : Nat) : (natLE k n).length = k := by
  induction k generalizing n with
  | zero => rfl
  | succ k ih => rw [natLE, List.length_cons, ih]

theorem ofLE_natLE (k n : Nat) : ofLE (natLE k n) = n % 256 ^ k := by
  induction k generalizing n with
  | zero => rw [Nat.pow_zero, Nat.mod_one]; rfl
  | succ k ih =>
    rw [natLE, ofLE, ih, Nat.pow_succ, Nat.mul_comm (256 ^ k), Nat.mod_mul, UInt8.toNat_ofNat']

/-- An integer below `256 ^ k` in `k` bytes. -/
def fixed (k : Nat) : Codec (Fin (256 ^ k)) where
  encode n := natLE k n
  decode bytes :=
    if (bytes.take k).length = k then
      some (⟨ofLE (bytes.take k) % 256 ^ k, Nat.mod_lt _ (Nat.pow_pos (by decide))⟩, bytes.drop k)
    else none
  decode_encode n rest := by
    have htake : (natLE k n ++ rest).take k = natLE k n :=
      List.take_left' (natLE_length k n)
    have hdrop : (natLE k n ++ rest).drop k = rest := List.drop_left' (natLE_length k n)
    simp only [htake, hdrop, natLE_length, if_true, ofLE_natLE,
      Nat.mod_eq_of_lt n.isLt]

def u16 : Codec UInt16 :=
  (fixed 2).iso (fun n => UInt16.ofNat n) (fun b => ⟨b.toNat, b.toNat_lt⟩) fun b => by simp

def u32 : Codec UInt32 :=
  (fixed 4).iso (fun n => UInt32.ofNat n) (fun b => ⟨b.toNat, b.toNat_lt⟩) fun b => by simp

def u64 : Codec UInt64 :=
  (fixed 8).iso (fun n => UInt64.ofNat n) (fun b => ⟨b.toNat, b.toNat_lt⟩) fun b => by simp

/-- The recursion of `uint`; the first argument bounds the number of bytes. -/
def encodeUint : Nat → Nat → List UInt8
  | 0, n => [UInt8.ofNat n]
  | fuel + 1, n =>
    if n < 128 then [UInt8.ofNat n]
    else UInt8.ofNat (n % 128 + 128) :: encodeUint fuel (n / 128)

def decodeUint : List UInt8 → Option (Nat × List UInt8)
  | [] => none
  | b :: rest =>
    if b.toNat < 128 then some (b.toNat, rest)
    else (decodeUint rest).map fun p => (b.toNat - 128 + 128 * p.1, p.2)

theorem decodeUint_encodeUint (fuel n : Nat) (h : n < 128 * (fuel + 1)) (rest : List UInt8) :
    decodeUint (encodeUint fuel n ++ rest) = some (n, rest) := by
  induction fuel generalizing n with
  | zero =>
    have hn : n < 128 := by omega
    have : n % 256 = n := Nat.mod_eq_of_lt (by omega)
    simp [encodeUint, decodeUint, UInt8.toNat_ofNat', this, hn]
  | succ fuel ih =>
    unfold encodeUint
    split
    · rename_i hn
      have : n % 256 = n := Nat.mod_eq_of_lt (by omega)
      simp [decodeUint, UInt8.toNat_ofNat', this, hn]
    · have hb : (n % 128 + 128) % 256 = n % 128 + 128 := Nat.mod_eq_of_lt (by omega)
      have hle : ¬ n % 128 + 128 < 128 := by omega
      simp only [List.cons_append, decodeUint, UInt8.toNat_ofNat', hb, hle, if_false,
        ih (n / 128) (by omega), Option.map_some]
      congr 2
      omega

/-- A variable-length integer. -/
def uint : Codec Nat where
  encode n := encodeUint n n
  decode := decodeUint
  decode_encode n rest := decodeUint_encodeUint n n (by omega) rest

/-! ## Sequences, options and unions -/

/-- A list with its length. -/
def list (c : Codec α) : Codec (List α) where
  encode l := uint.encode l.length ++ l.flatMap c.encode
  decode bytes := (uint.decode bytes).bind fun p => c.decodeN p.1 p.2
  decode_encode l rest := by
    simp only [List.append_assoc, uint.decode_encode, Option.bind_some, c.decodeN_flatMap]

/-- One variant of a union: its payload, and which values it represents. -/
structure Variant (α : Type) where
  Payload : Type
  codec : Codec Payload
  inj : Payload → α
  proj : α → Option Payload
  inj_of_proj : ∀ a p, proj a = some p → inj p = a

/-- The tag and the payload of the first variant that represents `a`. -/
def encodeVariant : List (Variant α) → Nat → α → List UInt8
  | [], _, _ => []
  | v :: vs, tag, a =>
    match v.proj a with
    | some p => uint.encode tag ++ v.codec.encode p
    | none => encodeVariant vs (tag + 1) a

def decodeVariant (vs : List (Variant α)) (bytes : List UInt8) : Option (α × List UInt8) :=
  (uint.decode bytes).bind fun t =>
    vs[t.1]?.bind fun v => (v.codec.decode t.2).map fun p => (v.inj p.1, p.2)

theorem decodeVariant_encodeVariant {all : List (Variant α)} {a : α} (rest : List UInt8) :
    ∀ (vs : List (Variant α)) (tag : Nat), all.drop tag = vs → (∃ v ∈ vs, (v.proj a).isSome) →
      decodeVariant all (encodeVariant vs tag a ++ rest) = some (a, rest) := by
  intro vs
  induction vs with
  | nil => simp
  | cons v vs ih =>
    intro tag hdrop hcover
    unfold encodeVariant
    cases hp : v.proj a with
    | some p =>
      have hget : all[tag]? = some v := by
        rw [← List.head?_drop, hdrop]
        rfl
      simp only [decodeVariant, List.append_assoc, uint.decode_encode, Option.bind_some, hget,
        v.codec.decode_encode, Option.map_some, v.inj_of_proj a p hp]
    | none =>
      apply ih
      · rw [← List.drop_drop, hdrop]
        rfl
      · obtain ⟨w, hw, hsome⟩ := hcover
        rcases List.mem_cons.mp hw with rfl | hw
        · rw [hp] at hsome
          cases hsome
        · exact ⟨w, hw, hsome⟩

/-- A tagged union. -/
def union (vs : List (Variant α)) (hcover : ∀ a, ∃ v ∈ vs, (v.proj a).isSome) : Codec α where
  encode := encodeVariant vs 0
  decode := decodeVariant vs
  decode_encode a rest := decodeVariant_encodeVariant rest vs 0 rfl (hcover a)

/-- A union with a single variant. -/
def tagged (c : Codec α) : Codec α :=
  union [⟨α, c, id, some, fun _ _ h => (Option.some.inj h).symm⟩] fun _ =>
    ⟨_, List.mem_singleton_self _, rfl⟩

/-- A variant without payload. -/
def Variant.const [DecidableEq α] (a : α) : Variant α where
  Payload := Unit
  codec := unit
  inj _ := a
  proj b := if b = a then some () else none
  inj_of_proj b _ h := by
    split at h
    · rename_i hb
      exact hb.symm
    · cases h

theorem Variant.const_proj [DecidableEq α] (a : α) : ((Variant.const a).proj a).isSome := by
  simp [Variant.const]

/-- An optional value: a byte 0, or a byte 1 and the value. -/
def option (c : Codec α) : Codec (Option α) where
  encode
    | none => [0]
    | some a => 1 :: c.encode a
  decode
    | [] => none
    | b :: rest =>
      if b = 0 then some (none, rest)
      else if b = 1 then (c.decode rest).map fun p => (some p.1, p.2)
      else none
  decode_encode a rest := by
    cases a with
    | none => rfl
    | some a => simp [c.decode_encode]

def bool : Codec Bool where
  encode b := [if b then 1 else 0]
  decode
    | [] => none
    | b :: rest => if b = 0 then some (false, rest) else if b = 1 then some (true, rest) else none
  decode_encode b rest := by cases b <;> rfl

/-! ## Lengths of encodings -/

/-- The number of bytes of a variable-length integer. -/
def uintLength (n : Nat) : Nat := Nat.log 128 n + 1

theorem encodeUint_length {fuel n : Nat} (h : n ≤ fuel) :
    (encodeUint fuel n).length = uintLength n := by
  induction fuel generalizing n with
  | zero =>
    rw [Nat.le_zero.mp h]
    rfl
  | succ fuel ih =>
    rw [encodeUint]
    split
    · rename_i hn
      rw [uintLength, Nat.log_of_lt hn]
      rfl
    · rw [List.length_cons, ih (by omega), uintLength, uintLength,
        Nat.log_of_one_lt_of_le (n := n) (by decide) (by omega)]

theorem uint_length (n : Nat) : (uint.encode n).length = uintLength n :=
  encodeUint_length (Nat.le_refl n)

theorem uintLength_le {n k : Nat} (hk : k ≠ 0) (h : n < 128 ^ k) : uintLength n ≤ k :=
  Nat.log_lt_of_lt_pow' hk h

/-- All encodings have `k` bytes. -/
def HasLength (c : Codec α) (k : Nat) : Prop := ∀ a, (c.encode a).length = k

theorem byte_length : byte.HasLength 1 := fun _ => rfl

theorem u32_length : u32.HasLength 4 := fun _ => natLE_length ..

section Lengths

variable {c : Codec α} {d : Codec β} {k m : Nat}

theorem HasLength.iso (hc : c.HasLength k) {f : α → β} {g : β → α} (h : ∀ b, f (g b) = b) :
    (c.iso f g h).HasLength k := fun b => hc (g b)

theorem HasLength.pair (hc : c.HasLength k) (hd : d.HasLength m) :
    (c.pair d).HasLength (k + m) := by
  intro p
  rw [Codec.pair, List.length_append, hc, hd]

theorem HasLength.flatMap (hc : c.HasLength k) (l : List α) :
    (l.flatMap c.encode).length = k * l.length := by
  induction l with
  | nil => rfl
  | cons a l ih =>
    rw [List.flatMap_cons, List.length_append, hc, ih, List.length_cons, Nat.mul_succ, Nat.add_comm]

theorem HasLength.array (hc : c.HasLength k) (n : Nat) : (c.array n).HasLength (k * n) := by
  intro v
  show (v.toList.flatMap c.encode).length = _
  rw [hc.flatMap, Vector.length_toList]

theorem tagged_length (a : α) : (c.tagged.encode a).length = 1 + (c.encode a).length := by
  show (uint.encode 0 ++ c.encode a).length = _
  rw [List.length_append, uint_length]
  rfl

theorem HasLength.tagged (hc : c.HasLength k) : c.tagged.HasLength (1 + k) := by
  intro a
  rw [tagged_length, hc]

theorem HasLength.list (hc : c.HasLength k) (l : List α) :
    (c.list.encode l).length = uintLength l.length + k * l.length := by
  rw [Codec.list, List.length_append, uint_length, hc.flatMap]

theorem HasLength.option (hc : c.HasLength k) (a : Option α) :
    (c.option.encode a).length = if a.isSome then 1 + k else 1 := by
  cases a with
  | none => rfl
  | some a =>
    show (c.encode a).length + 1 = 1 + k
    rw [hc, Nat.add_comm]

end Lengths

end Codec

end Lofire.Lib
