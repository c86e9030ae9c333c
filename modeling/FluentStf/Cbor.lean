import FluentStf.Primitives
import FluentStf.Rlp.Encoding

/-! CBOR data items without tags, and all their encodings.

An encoding may choose the width of every head, and for every string, array and map between
a counted form and one that ends with a break byte. -/
namespace FluentStf

theorem ofBigEndian_beBytes (width n : Nat) :
    Rlp.ofBigEndian (beBytes width n) = n % 256 ^ width := by
  induction width with
  | zero => simp [beBytes, Rlp.ofBigEndian, Nat.mod_one]
  | succ width ih =>
      rw [beBytes_succ, Rlp.ofBigEndian_cons, ih, beBytes_length, UInt8.toNat_ofNat',
        Nat.pow_succ 256 width, Nat.mod_mul, Nat.add_comm, Nat.mul_comm]

theorem beBytes_one (n : Nat) : beBytes 1 n = [UInt8.ofNat n] := by
  simp [beBytes]

/-- Digits above the width are not seen. -/
theorem beBytes_mul_add (bytes : Bytes) (n : Nat) :
    beBytes bytes.length (n * 256 ^ bytes.length + Rlp.ofBigEndian bytes) = bytes := by
  induction bytes generalizing n with
  | nil => rfl
  | cons byte bytes ih =>
      have hlt := Rlp.ofBigEndian_lt bytes
      have hbyte := byte.toNat_lt
      have hsplit : n * 256 ^ (bytes.length + 1) +
          (byte.toNat * 256 ^ bytes.length + Rlp.ofBigEndian bytes) =
          (n * 256 + byte.toNat) * 256 ^ bytes.length + Rlp.ofBigEndian bytes := by
        rw [Nat.pow_succ]
        ring
      have hdiv : ((n * 256 + byte.toNat) * 256 ^ bytes.length + Rlp.ofBigEndian bytes) /
          256 ^ bytes.length = n * 256 + byte.toNat := by
        rw [Nat.add_comm, Nat.add_mul_div_right _ _ (Nat.pow_pos (by omega)),
          Nat.div_eq_of_lt hlt, Nat.zero_add]
      rw [List.length_cons, beBytes_succ, Rlp.ofBigEndian_cons, hsplit, hdiv, ih]
      congr 1
      apply UInt8.toNat_inj.mp
      rw [UInt8.toNat_ofNat']
      omega

theorem beBytes_ofBigEndian (bytes : Bytes) :
    beBytes bytes.length (Rlp.ofBigEndian bytes) = bytes := by
  simpa using beBytes_mul_add bytes 0

namespace Cbor

/-- The first byte of a head: three bits of major type and five of additional information. -/
def initialByte (major info : Nat) : UInt8 := UInt8.ofNat (32 * major + info)

/-- Ends a string, an array or a map whose length is not given. -/
def breakByte : UInt8 := 0xff

/-- A head of the given major type with an argument, in any of its widths. -/
inductive IsHead (major : Nat) : Nat → Bytes → Prop
  | tiny {arg : Nat} (harg : arg < 24) : IsHead major arg [initialByte major arg]
  | wide {arg : Nat} (i : Nat) (hi : i < 4) (harg : arg < 256 ^ 2 ^ i) :
      IsHead major arg (initialByte major (24 + i) :: beBytes (2 ^ i) arg)

/-- Items between a counted head and nothing, or between an open head and a break. -/
inductive Framed (major count : Nat) (body : Bytes) : Bytes → Prop
  | counted {head : Bytes} (hhead : IsHead major count head) :
      Framed major count body (head ++ body)
  | opened : Framed major count body (initialByte major 31 :: (body ++ [breakByte]))

/-- A string in one piece, or in pieces with a head each. -/
inductive IsString (major : Nat) : Bytes → Bytes → Prop
  | whole {content head : Bytes} (hhead : IsHead major content.length head) :
      IsString major content (head ++ content)
  | chunked (chunks : List (Bytes × Bytes))
      (hheads : ∀ chunk ∈ chunks, IsHead major chunk.2.length chunk.1) :
      IsString major (chunks.flatMap Prod.snd)
        (initialByte major 31 :: (chunks.flatMap (fun chunk => chunk.1 ++ chunk.2) ++ [breakByte]))

/-- The values of the data model, all but tags. -/
inductive Item where
  | uint (n : Nat)
  /-- The number `-1 - n`. -/
  | nint (n : Nat)
  | bytes (content : Bytes)
  | text (content : Bytes)
  | array (items : List Item)
  | map (entries : List (Item × Item))
  | simple (value : UInt8)
  | float16 (bits : UInt16)
  | float32 (bits : UInt32)
  | float64 (bits : UInt64)

/-- An item and one of its encodings. Every head may be wider than it has to be. -/
inductive Encodes : Item → Bytes → Prop
  | uint {n : Nat} {bytes : Bytes} (hhead : IsHead 0 n bytes) : Encodes (.uint n) bytes
  | nint {n : Nat} {bytes : Bytes} (hhead : IsHead 1 n bytes) : Encodes (.nint n) bytes
  | bytes {content bytes : Bytes} (h : IsString 2 content bytes) : Encodes (.bytes content) bytes
  | text {content bytes : Bytes} (h : IsString 3 content bytes) : Encodes (.text content) bytes
  | array {parts : List (Item × Bytes)} {bytes : Bytes}
      (hitems : ∀ part ∈ parts, Encodes part.1 part.2)
      (hframe : Framed 4 parts.length (parts.flatMap Prod.snd) bytes) :
      Encodes (.array (parts.map Prod.fst)) bytes
  | map {parts : List ((Item × Bytes) × (Item × Bytes))} {bytes : Bytes}
      (hkeys : ∀ part ∈ parts, Encodes part.1.1 part.1.2)
      (hvalues : ∀ part ∈ parts, Encodes part.2.1 part.2.2)
      (hframe : Framed 5 parts.length (parts.flatMap fun part => part.1.2 ++ part.2.2) bytes) :
      Encodes (.map (parts.map fun part => (part.1.1, part.2.1))) bytes
  | simpleTiny {value : UInt8} (hvalue : value < 24) :
      Encodes (.simple value) [initialByte 7 value.toNat]
  | simpleWide {value : UInt8} (hvalue : 32 ≤ value) : Encodes (.simple value) [0xf8, value]
  | float16 (bits : UInt16) : Encodes (.float16 bits) (0xf9 :: beBytes 2 bits.toNat)
  | float32 (bits : UInt32) : Encodes (.float32 bits) (0xfa :: beBytes 4 bits.toNat)
  | float64 (bits : UInt64) : Encodes (.float64 bits) (0xfb :: beBytes 8 bits.toNat)

/-! Heads -/

section Heads

variable {major major' info info' n m : Nat} {a b x y : Bytes}

theorem initialByte_toNat (hmajor : major < 8) (hinfo : info < 32) :
    (initialByte major info).toNat = 32 * major + info := by
  rw [initialByte, UInt8.toNat_ofNat']
  omega

theorem initialByte_inj (hmajor : major < 8) (hmajor' : major' < 8) (hinfo : info < 32)
    (hinfo' : info' < 32) (h : initialByte major info = initialByte major' info') :
    major = major' ∧ info = info' := by
  have hnat := congrArg UInt8.toNat h
  rw [initialByte_toNat hmajor hinfo, initialByte_toNat hmajor' hinfo'] at hnat
  omega

/-- Major type and additional information, as they are cut out of the first byte. -/
theorem initialByte_split (hmajor : major < 8) (hinfo : info < 32) :
    ((initialByte major info) >>> 5).toNat = major ∧
      ((initialByte major info) &&& 0x1f).toNat = info := by
  have hnat := initialByte_toNat hmajor hinfo
  rw [UInt8.toNat_shiftRight, UInt8.toNat_and, hnat]
  constructor
  · rw [Nat.shiftRight_eq_div_pow]
    simp only [UInt8.reduceToNat, Nat.reduceMod, Nat.reducePow]
    omega
  · rw [show (0x1f : UInt8).toNat = 2 ^ 5 - 1 from rfl, Nat.and_two_pow_sub_one_eq_mod]
    omega

theorem initialByte_join (byte : UInt8) :
    initialByte (byte >>> 5).toNat (byte &&& 0x1f).toNat = byte ∧
      (byte >>> 5).toNat < 8 ∧ (byte &&& 0x1f).toNat < 32 := by
  have hlt := byte.toNat_lt
  have hmajor : (byte >>> 5).toNat = byte.toNat / 32 := by
    rw [UInt8.toNat_shiftRight, Nat.shiftRight_eq_div_pow]
    rfl
  have hinfo : (byte &&& 0x1f).toNat = byte.toNat % 32 := by
    rw [UInt8.toNat_and, show (0x1f : UInt8).toNat = 2 ^ 5 - 1 from rfl,
      Nat.and_two_pow_sub_one_eq_mod]
  rw [hmajor, hinfo]
  refine ⟨?_, by omega, by omega⟩
  apply UInt8.toNat_inj.mp
  rw [initialByte_toNat (by omega) (by omega)]
  omega

theorem IsHead.eq_cons (h : IsHead major n a) :
    ∃ info rest, a = initialByte major info :: rest ∧ info < 28 := by
  cases h with
  | tiny harg => exact ⟨n, [], rfl, by omega⟩
  | wide i hi => exact ⟨24 + i, _, rfl, by omega⟩

theorem IsString.eq_cons {content bytes : Bytes} (h : IsString major content bytes) :
    ∃ info rest, bytes = initialByte major info :: rest ∧ info < 32 := by
  cases h with
  | whole hhead =>
      obtain ⟨info, rest, rfl, hinfo⟩ := hhead.eq_cons
      exact ⟨info, _, rfl, by omega⟩
  | chunked => exact ⟨31, _, rfl, by omega⟩

/-- A head is never mistaken for a break. -/
theorem initialByte_ne_break (hmajor : major < 8) (hinfo : info < 32)
    (h : major < 7 ∨ info < 31) : initialByte major info ≠ breakByte := by
  intro heq
  have hnat := congrArg UInt8.toNat heq
  rw [initialByte_toNat hmajor hinfo] at hnat
  have hbreak : breakByte.toNat = 255 := rfl
  omega

theorem IsHead.delimited (hmajor : major < 8) (h : IsHead major n a) :
    ∃ byte rest, a = byte :: rest ∧ byte ≠ breakByte := by
  obtain ⟨info, rest, rfl, hinfo⟩ := h.eq_cons
  exact ⟨_, rest, rfl, initialByte_ne_break hmajor (by omega) (.inr (by omega))⟩

theorem Framed.length_lt {count : Nat} {body bytes : Bytes} (h : Framed major count body bytes) :
    body.length < bytes.length := by
  cases h with
  | counted hhead =>
      obtain ⟨info, rest, rfl, -⟩ := hhead.eq_cons
      simp
  | opened => simp

/-- A head is told apart from whatever follows it. -/
theorem IsHead.unique (hmajor : major < 8) (hmajor' : major' < 8) (ha : IsHead major n a)
    (hb : IsHead major' m b) (heq : a ++ x = b ++ y) : major = major' ∧ n = m ∧ x = y := by
  cases ha with
  | tiny hn =>
      cases hb with
      | tiny hm =>
          obtain ⟨hbyte, hrest⟩ := List.cons.inj heq
          obtain ⟨rfl, rfl⟩ := initialByte_inj hmajor hmajor' (by omega) (by omega) hbyte
          exact ⟨rfl, rfl, hrest⟩
      | wide i hi hm =>
          obtain ⟨hbyte, -⟩ := List.cons.inj heq
          have hinfo := (initialByte_inj hmajor hmajor' (by omega) (by omega) hbyte).2
          omega
  | wide i hi hn =>
      cases hb with
      | tiny hm =>
          obtain ⟨hbyte, -⟩ := List.cons.inj heq
          have hinfo := (initialByte_inj hmajor hmajor' (by omega) (by omega) hbyte).2
          omega
      | wide j hj hm =>
          obtain ⟨hbyte, hrest⟩ := List.cons.inj heq
          obtain ⟨rfl, hinfo⟩ := initialByte_inj hmajor hmajor' (by omega) (by omega) hbyte
          obtain rfl : i = j := by omega
          obtain ⟨harg, rfl⟩ := List.append_inj hrest (by simp)
          have hmod := beBytes_inj harg
          rw [Nat.mod_eq_of_lt hn, Nat.mod_eq_of_lt hm] at hmod
          exact ⟨rfl, hmod, rfl⟩

end Heads

/-- The entries of an encoded map, each a key and a value one after the other. -/
theorem Encodes.map_entries {entries : List (Item × Item)} {bytes : Bytes}
    (h : Encodes (.map entries) bytes) :
    ∃ parts, List.Forall₂ (fun entry part => ∃ key value, part = key ++ value ∧
      Encodes entry.1 key ∧ Encodes entry.2 value) entries parts ∧
      Framed 5 parts.length parts.flatten bytes := by
  cases h with
  | @map parts _ hkeys hvalues hframe =>
      refine ⟨parts.map fun part => part.1.2 ++ part.2.2, ?_, ?_⟩
      · rw [List.forall₂_map_left_iff, List.forall₂_map_right_iff, List.forall₂_same]
        exact fun part hpart => ⟨_, _, rfl, hkeys part hpart, hvalues part hpart⟩
      · rwa [List.length_map, ← List.flatMap_def]

end Cbor

end FluentStf
