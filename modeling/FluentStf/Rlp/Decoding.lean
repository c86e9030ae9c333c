import FluentStf.Rlp.Encoding

/-! Reading the RLP wire format. Headers are read strictly: lengths have no
leading zeros and use the shortest form, and the payload must be present. -/
namespace Rlp

inductive DecodeError where
  | InputTooShort
  | NonCanonicalSingleByte
  | LeadingZero
  | NonCanonicalSize
  | UnexpectedList
  | UnexpectedString
  | UnexpectedLength
  | ListLengthMismatch
  | Overflow
deriving DecidableEq, Repr

namespace Header

/-- The payload of an item must lie in the input. -/
def checked (h : Header) (rest : List UInt8) : Except DecodeError (Header × List UInt8) :=
  if rest.length < h.payloadLength then .error .InputTooShort else .ok (h, rest)

/-- A length that is written in bytes of its own. -/
def decodeLong (list : Bool) (lengthBytes : Nat) (rest : List UInt8) :
    Except DecodeError (Header × List UInt8) :=
  if rest.length < lengthBytes then .error .InputTooShort
  else if (rest.take lengthBytes).head? = some 0 then .error .LeadingZero
  else if ofBigEndian (rest.take lengthBytes) < 56 then .error .NonCanonicalSize
  else checked ⟨list, ofBigEndian (rest.take lengthBytes)⟩ (rest.drop lengthBytes)

/-- A string of one byte must not be written for a plain byte. -/
def decodeSingle : List UInt8 → Except DecodeError (Header × List UInt8)
  | [] => .error .InputTooShort
  | next :: rest =>
      if next < 0x80 then .error .NonCanonicalSingleByte else checked ⟨false, 1⟩ (next :: rest)

/-- Read one header. A plain byte is its own payload and is not consumed. -/
def decode : List UInt8 → Except DecodeError (Header × List UInt8)
  | [] => .error .InputTooShort
  | code :: rest =>
      if code.toNat < 0x80 then checked ⟨false, 1⟩ (code :: rest)
      else if code.toNat < 0xB8 then
        if code.toNat = 0x81 then decodeSingle rest
        else checked ⟨false, code.toNat - 0x80⟩ rest
      else if code.toNat < 0xC0 then decodeLong false (code.toNat - 0xB7) rest
      else if code.toNat < 0xF8 then checked ⟨true, code.toNat - 0xC0⟩ rest
      else decodeLong true (code.toNat - 0xF7) rest

variable {rest : List UInt8}

theorem checked_ok {h : Header} (hlength : h.payloadLength ≤ rest.length) :
    checked h rest = .ok (h, rest) := by
  rw [checked, if_neg (by omega)]

theorem decodeLong_ok {list : Bool} {n : Nat} (hlong : 56 ≤ n) (hlength : n ≤ rest.length) :
    decodeLong list (toBigEndian n).length (toBigEndian n ++ rest) = .ok (⟨list, n⟩, rest) := by
  rw [decodeLong, List.take_left, List.drop_left, ofBigEndian_toBigEndian,
    if_neg (by simp), if_neg (toBigEndian_head_ne_zero n), if_neg (by omega)]
  exact checked_ok hlength

/-- A list header is read back from the front of its payload. -/
theorem decode_list {n : Nat} (hn : n < 2 ^ 64) (hlength : n ≤ rest.length) :
    decode (encode ⟨true, n⟩ ++ rest) = .ok (⟨true, n⟩, rest) := by
  by_cases hs : n < 56
  · rw [encode_short _ hs]
    have hcode : (UInt8.ofNat (0xC0 + n)).toNat = 0xC0 + n := by
      rw [UInt8.toNat_ofNat', Nat.mod_eq_of_lt (by omega)]
    simp only [shortCode, if_true, List.singleton_append, decode, hcode]
    rw [if_neg (by omega), if_neg (by omega), if_neg (by omega), if_pos (by omega),
      Nat.add_sub_cancel_left]
    exact checked_ok hlength
  · obtain ⟨hb1, hb2⟩ := length_bytes_bounds (Nat.not_lt.mp hs) hn
    rw [encode_long _ (Nat.not_lt.mp hs)]
    have hcode : (UInt8.ofNat (0xF7 + (toBigEndian n).length)).toNat =
        0xF7 + (toBigEndian n).length := by
      rw [UInt8.toNat_ofNat', Nat.mod_eq_of_lt (by omega)]
    simp only [longCode, if_true, List.cons_append, decode, hcode]
    rw [if_neg (by omega), if_neg (by omega), if_neg (by omega), if_neg (by omega),
      Nat.add_sub_cancel_left]
    exact decodeLong_ok (Nat.not_lt.mp hs) hlength

theorem checked_eq_ok {g h : Header} {buf : List UInt8} (hd : checked g buf = .ok (h, rest)) :
    h = g ∧ rest = buf ∧ g.payloadLength ≤ buf.length := by
  unfold checked at hd
  split_ifs at hd with hlength
  cases hd
  exact ⟨rfl, rfl, by omega⟩

theorem decodeLong_eq_ok {list : Bool} {m : Nat} {buf : List UInt8} {h : Header}
    (hm : m ≤ 8) (hd : decodeLong list m buf = .ok (h, rest)) :
    ∃ n, h = ⟨list, n⟩ ∧ 56 ≤ n ∧ n < 2 ^ 64 ∧ n ≤ rest.length ∧
      (toBigEndian n).length = m ∧ buf = toBigEndian n ++ rest := by
  unfold decodeLong at hd
  split_ifs at hd with hshort hzero hsmall
  obtain ⟨rfl, rfl, hlength⟩ := checked_eq_ok hd
  have hdigits := toBigEndian_ofBigEndian _ hzero
  have hm' : (toBigEndian (ofBigEndian (buf.take m))).length = m := by
    rw [hdigits, List.length_take]
    omega
  refine ⟨_, rfl, by omega, ?_, hlength, hm', by rw [hdigits, List.take_append_drop]⟩
  have hlt := lt_of_toBigEndian_length_le (hm'.le.trans hm)
  simpa using hlt

/-- What is read as a list header is the encoding of that header. -/
theorem decode_eq_list {n : Nat} {buf : List UInt8} (hd : decode buf = .ok (⟨true, n⟩, rest)) :
    buf = encode ⟨true, n⟩ ++ rest ∧ n ≤ rest.length ∧ n < 2 ^ 64 := by
  cases buf with
  | nil => cases hd
  | cons code buf =>
      have hcode : UInt8.ofNat code.toNat = code := by simp
      have hlt := code.toNat_lt
      rw [decode] at hd
      split_ifs at hd with h1 h2 h3 h4 h5
      · cases (checked_eq_ok hd).1
      · cases buf with
        | nil => cases hd
        | cons next buf =>
            rw [decodeSingle] at hd
            split_ifs at hd
            cases (checked_eq_ok hd).1
      · cases (checked_eq_ok hd).1
      · obtain ⟨m, hh, _⟩ := decodeLong_eq_ok (by omega) hd
        cases hh
      · obtain ⟨hh, rfl, hlength⟩ := checked_eq_ok hd
        have hn : n = code.toNat - 0xC0 := congrArg payloadLength hh
        have hsum : 0xC0 + n = code.toNat := by omega
        refine ⟨?_, by rw [hn]; exact hlength, by omega⟩
        rw [encode_short _ (by simp only; omega)]
        simp only [shortCode, if_true, hsum, hcode, List.singleton_append]
      · obtain ⟨m, hh, hlong, hm, hlength, hbytes, rfl⟩ := decodeLong_eq_ok (by omega) hd
        cases hh
        refine ⟨?_, hlength, hm⟩
        have hsum : 0xF7 + (code.toNat - 0xF7) = code.toNat := by omega
        rw [encode_long _ hlong]
        simp only [longCode, if_true, hbytes, hsum, hcode, List.cons_append]

/-- The payload of an item lies in the input. -/
theorem decode_bounds {h : Header} {buf : List UInt8} (hd : decode buf = .ok (h, rest)) :
    h.payloadLength ≤ rest.length ∧ rest.length ≤ buf.length := by
  cases buf with
  | nil => cases hd
  | cons code buf =>
      have hlt := code.toNat_lt
      rw [decode] at hd
      split_ifs at hd with h1 h2 h3 h4 h5
      · obtain ⟨rfl, rfl, hlength⟩ := checked_eq_ok hd
        exact ⟨hlength, le_rfl⟩
      · cases buf with
        | nil => cases hd
        | cons next buf =>
            rw [decodeSingle] at hd
            split_ifs at hd
            obtain ⟨rfl, rfl, hlength⟩ := checked_eq_ok hd
            exact ⟨hlength, Nat.le_succ _⟩
      · obtain ⟨rfl, rfl, hlength⟩ := checked_eq_ok hd
        exact ⟨hlength, Nat.le_succ _⟩
      · obtain ⟨n, rfl, -, -, hlength, -, rfl⟩ := decodeLong_eq_ok (by omega) hd
        exact ⟨hlength, by simp; omega⟩
      · obtain ⟨rfl, rfl, hlength⟩ := checked_eq_ok hd
        exact ⟨hlength, Nat.le_succ _⟩
      · obtain ⟨n, rfl, -, -, hlength, -, rfl⟩ := decodeLong_eq_ok (by omega) hd
        exact ⟨hlength, by simp; omega⟩

/-- A string header is read back unless its payload is a plain byte. -/
theorem decode_string {n : Nat} (hn : n < 2 ^ 64) (hlength : n ≤ rest.length)
    (hplain : n = 1 → ∀ b, rest.head? = some b → ¬b < 0x80) :
    decode (encode ⟨false, n⟩ ++ rest) = .ok (⟨false, n⟩, rest) := by
  by_cases hs : n < 56
  · rw [encode_short _ hs]
    have hcode : (UInt8.ofNat (0x80 + n)).toNat = 0x80 + n := by
      rw [UInt8.toNat_ofNat', Nat.mod_eq_of_lt (by omega)]
    simp only [shortCode, Bool.false_eq_true, if_false, List.singleton_append, decode, hcode]
    rw [if_neg (by omega), if_pos (by omega), Nat.add_sub_cancel_left]
    split_ifs with hone
    · obtain rfl : n = 1 := by omega
      cases rest with
      | nil => simp at hlength
      | cons b rest =>
          rw [decodeSingle, if_neg (hplain rfl b rfl)]
          exact checked_ok hlength
    · exact checked_ok hlength
  · obtain ⟨hb1, hb2⟩ := length_bytes_bounds (Nat.not_lt.mp hs) hn
    rw [encode_long _ (Nat.not_lt.mp hs)]
    have hcode : (UInt8.ofNat (0xB7 + (toBigEndian n).length)).toNat =
        0xB7 + (toBigEndian n).length := by
      rw [UInt8.toNat_ofNat', Nat.mod_eq_of_lt (by omega)]
    simp only [longCode, Bool.false_eq_true, if_false, List.cons_append, decode, hcode]
    rw [if_neg (by omega), if_neg (by omega), if_pos (by omega), Nat.add_sub_cancel_left]
    exact decodeLong_ok (Nat.not_lt.mp hs) hlength

end Header

/-- Read a byte string. -/
def decodeBytes (buf : List UInt8) : Except DecodeError (List UInt8 × List UInt8) :=
  match Header.decode buf with
  | .error e => .error e
  | .ok (h, rest) =>
      if h.list then .error .UnexpectedList
      else .ok (rest.take h.payloadLength, rest.drop h.payloadLength)

/-- A string is found behind its header, a plain byte is its own header. -/
theorem Header.decode_encodeBytes {bytes : List UInt8} (h : bytes.length < 2 ^ 64)
    (rest : List UInt8) :
    Header.decode (encodeBytes bytes ++ rest) = .ok (⟨false, bytes.length⟩, bytes ++ rest) := by
  rcases encodeBytes_cases bytes with ⟨b, rfl, small, he⟩ | he
  · have hb := UInt8.lt_iff_toNat_lt.mp small
    rw [he, List.singleton_append, Header.decode, if_pos (by simpa using hb),
      Header.checked_ok (by simp)]
    rfl
  · have hplain : bytes.length = 1 → ∀ b, (bytes ++ rest).head? = some b → ¬b < 0x80 := by
      intro hone b hb small
      obtain ⟨c, rfl⟩ := List.length_eq_one_iff.mp hone
      obtain rfl : c = b := by simpa using hb
      have := congrArg List.length he
      simp [encodeBytes, small, Header.encode] at this
    rw [he, List.append_assoc, Header.decode_string h (by simp) hplain]

@[simp] theorem decodeBytes_encodeBytes {bytes : List UInt8} (h : bytes.length < 2 ^ 64)
    (rest : List UInt8) : decodeBytes (encodeBytes bytes ++ rest) = .ok (bytes, rest) := by
  rw [decodeBytes, Header.decode_encodeBytes h]
  simp

/-- A number is the string of its digits. -/
def encodeNat (n : Nat) : List UInt8 := encodeBytes (toBigEndian n)

/-- Read a number of at most the given number of digits. -/
def decodeNat (limit : Nat) (buf : List UInt8) : Except DecodeError (Nat × List UInt8) :=
  match decodeBytes buf with
  | .error e => .error e
  | .ok (digits, rest) =>
      if limit < digits.length then .error .Overflow
      else if digits.head? = some 0 then .error .LeadingZero
      else .ok (ofBigEndian digits, rest)

theorem decodeNat_encodeNat {limit n : Nat} (hlimit : limit ≤ 32) (hn : n < 256 ^ limit)
    (rest : List UInt8) : decodeNat limit (encodeNat n ++ rest) = .ok (n, rest) := by
  have hlength := toBigEndian_length_le n limit hn
  rw [decodeNat, encodeNat, decodeBytes_encodeBytes (by omega)]
  simp only [ofBigEndian_toBigEndian]
  rw [if_neg (by omega), if_neg (toBigEndian_head_ne_zero n)]

end Rlp
