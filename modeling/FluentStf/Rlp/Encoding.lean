import Mathlib.Data.Nat.Digits.Lemmas
import Mathlib.Data.List.Basic

/-! The RLP wire format: headers, byte strings and lists of already encoded
items. Lengths are natural numbers; the format itself ends at lengths below
`2 ^ 64`, and the uniqueness results ask for that bound where they need it. -/
namespace Rlp

/-- Digits of a length in base 256, most significant first, without leading zeros. -/
def toBigEndian (n : Nat) : List UInt8 :=
  ((Nat.digits 256 n).map UInt8.ofNat).reverse

def ofBigEndian (bytes : List UInt8) : Nat :=
  Nat.ofDigits 256 (bytes.reverse.map UInt8.toNat)

/-- The kind of an item and the number of payload bytes after its header. -/
structure Header where
  list : Bool
  payloadLength : Nat
deriving DecidableEq, Repr

namespace Header

def shortCode (h : Header) : Nat := if h.list then 0xC0 else 0x80

def longCode (h : Header) : Nat := if h.list then 0xF7 else 0xB7

/-- Payloads below 56 bytes put their length in the first byte; longer ones put
there the number of length bytes that follow. -/
def encode (h : Header) : List UInt8 :=
  if h.payloadLength < 56 then [UInt8.ofNat (h.shortCode + h.payloadLength)]
  else UInt8.ofNat (h.longCode + (toBigEndian h.payloadLength).length) ::
    toBigEndian h.payloadLength

end Header

/-- A single byte below `0x80` is its own encoding. -/
def encodeBytes : List UInt8 → List UInt8
  | [b] => if b < 0x80 then [b] else Header.encode ⟨false, 1⟩ ++ [b]
  | bytes => Header.encode ⟨false, bytes.length⟩ ++ bytes

/-- A list whose items are already encoded. -/
def encodeList (items : List (List UInt8)) : List UInt8 :=
  Header.encode ⟨true, items.flatten.length⟩ ++ items.flatten

@[simp] theorem toNat_digits (n : Nat) :
    ((Nat.digits 256 n).map UInt8.ofNat).map UInt8.toNat = Nat.digits 256 n := by
  rw [List.map_map, List.map_congr_left (g := id), List.map_id]
  intro d hd
  have hlt : d < 256 := Nat.digits_lt_base (by omega) hd
  simpa using Nat.mod_eq_of_lt hlt

@[simp] theorem ofBigEndian_toBigEndian (n : Nat) : ofBigEndian (toBigEndian n) = n := by
  simp only [ofBigEndian, toBigEndian, List.reverse_reverse, toNat_digits, Nat.ofDigits_digits]

theorem toBigEndian_inj {m n : Nat} (h : toBigEndian m = toBigEndian n) : m = n := by
  rw [← ofBigEndian_toBigEndian m, h, ofBigEndian_toBigEndian]

theorem ofBigEndian_lt (bytes : List UInt8) : ofBigEndian bytes < 256 ^ bytes.length := by
  have hlt := Nat.ofDigits_lt_base_pow_length (b := 256) (l := bytes.reverse.map UInt8.toNat)
    (by omega) (fun d hd => by
      obtain ⟨b, _, rfl⟩ := List.mem_map.mp hd
      exact b.toNat_lt)
  simpa [ofBigEndian] using hlt

theorem ofBigEndian_cons (byte : UInt8) (bytes : List UInt8) :
    ofBigEndian (byte :: bytes) = byte.toNat * 256 ^ bytes.length + ofBigEndian bytes := by
  rw [ofBigEndian, List.reverse_cons, List.map_append, Nat.ofDigits_append, List.length_map,
    List.length_reverse, List.map_singleton, Nat.ofDigits_singleton, Nat.mul_comm, Nat.add_comm,
    ofBigEndian]

theorem ofBigEndian_zero_cons (bytes : List UInt8) :
    ofBigEndian (0 :: bytes) = ofBigEndian bytes := by
  simp [ofBigEndian, Nat.ofDigits_append]

/-- Bytes without a leading zero are the digits of the number they denote. -/
theorem toBigEndian_ofBigEndian (bytes : List UInt8) (h : bytes.head? ≠ some 0) :
    toBigEndian (ofBigEndian bytes) = bytes := by
  have hdigits : Nat.digits 256 (Nat.ofDigits 256 (bytes.reverse.map UInt8.toNat)) =
      bytes.reverse.map UInt8.toNat := by
    apply Nat.digits_ofDigits 256 (by omega)
    · intro d hd
      obtain ⟨b, _, rfl⟩ := List.mem_map.mp hd
      exact b.toNat_lt
    · intro hne hlast
      have hbytes : bytes ≠ [] := by
        rintro rfl
        exact hne rfl
      rw [List.getLast_map, List.getLast_reverse] at hlast
      apply h
      rw [List.head?_eq_some_head hbytes, UInt8.toNat_inj.mp (hlast.trans UInt8.toNat_zero.symm)]
  rw [toBigEndian, ofBigEndian, hdigits, List.map_map]
  rw [List.map_congr_left (g := id) (fun b _ => by simp), List.map_id, List.reverse_reverse]

theorem toBigEndian_length_le (n k : Nat) (h : n < 256 ^ k) : (toBigEndian n).length ≤ k := by
  simp only [toBigEndian, List.length_reverse, List.length_map]
  exact (Nat.digits_length_le_iff (by omega) n).mpr h

theorem lt_of_toBigEndian_length_le {n k : Nat} (h : (toBigEndian n).length ≤ k) : n < 256 ^ k := by
  simp only [toBigEndian, List.length_reverse, List.length_map] at h
  exact (Nat.digits_length_le_iff (by omega) n).mp h

theorem toBigEndian_length_pos {n : Nat} (h : 0 < n) : 0 < (toBigEndian n).length := by
  simp only [toBigEndian, List.length_reverse, List.length_map, List.length_pos_iff]
  exact Nat.digits_ne_nil_iff_ne_zero.mpr (by omega)

theorem toBigEndian_head_ne_zero (n : Nat) : (toBigEndian n).head? ≠ some 0 := by
  intro h
  have hd : toBigEndian n ≠ [] := by
    intro hnil
    simp [hnil] at h
  have hne : Nat.digits 256 n ≠ [] := by
    intro hnil
    simp [toBigEndian, hnil] at hd
  have hn : n ≠ 0 := Nat.digits_ne_nil_iff_ne_zero.mp hne
  rw [toBigEndian, List.head?_reverse, List.getLast?_map, List.getLast?_eq_some_getLast hne] at h
  have hlast := Nat.getLast_digit_ne_zero 256 hn
  have hlt := Nat.digits_lt_base (b := 256) (m := n) (by omega) (List.getLast_mem hne)
  simp only [Option.map_some, Option.some.injEq] at h
  have := congrArg UInt8.toNat h
  simp only [UInt8.toNat_ofNat', UInt8.toNat_zero] at this
  omega

theorem Header.encode_short (h : Header) (hs : h.payloadLength < 56) :
    h.encode = [UInt8.ofNat (h.shortCode + h.payloadLength)] := by
  simp [Header.encode, hs]

theorem Header.encode_long (h : Header) (hl : 56 ≤ h.payloadLength) :
    h.encode = UInt8.ofNat (h.longCode + (toBigEndian h.payloadLength).length) ::
      toBigEndian h.payloadLength := by
  simp [Header.encode, Nat.not_lt.mpr hl]

theorem Header.codes (h : Header) :
    h.list = true ∧ h.shortCode = 0xC0 ∧ h.longCode = 0xF7 ∨
      h.list = false ∧ h.shortCode = 0x80 ∧ h.longCode = 0xB7 := by
  cases hl : h.list <;> simp [Header.shortCode, Header.longCode, hl]

/-- Number of bytes of a length that fits in the format. -/
theorem length_bytes_bounds {n : Nat} (hl : 56 ≤ n) (hn : n < 2 ^ 64) :
    1 ≤ (toBigEndian n).length ∧ (toBigEndian n).length ≤ 8 :=
  ⟨toBigEndian_length_pos (by omega), toBigEndian_length_le n 8 (by simpa using hn)⟩

theorem ofNat_inj_of_lt {a b : Nat} (ha : a < 256) (hb : b < 256)
    (h : UInt8.ofNat a = UInt8.ofNat b) : a = b := by
  have := congrArg UInt8.toNat h
  simp only [UInt8.toNat_ofNat'] at this
  omega

/-- A header can be read off the front of a byte string in one way only. -/
theorem Header.encode_append_inj {g h : Header} {x y : List UInt8}
    (hg : g.payloadLength < 2 ^ 64) (hh : h.payloadLength < 2 ^ 64)
    (he : g.encode ++ x = h.encode ++ y) : g = h ∧ x = y := by
  have hgc := g.codes
  have hhc := h.codes
  have build : g.list = h.list → g.payloadLength = h.payloadLength → g = h := by
    intro hlist hlength
    cases g
    cases h
    simp_all
  by_cases hgs : g.payloadLength < 56 <;> by_cases hhs : h.payloadLength < 56
  · rw [encode_short _ hgs, encode_short _ hhs] at he
    obtain ⟨hfirst, hrest⟩ := List.cons.inj he
    have hcode := ofNat_inj_of_lt (by omega) (by omega) hfirst
    refine ⟨build ?_ (by omega), hrest⟩
    rcases hgc with ⟨h1, _⟩ | ⟨h1, _⟩ <;> rcases hhc with ⟨h2, _⟩ | ⟨h2, _⟩ <;>
      first | exact h1.trans h2.symm | omega
  · have hb := length_bytes_bounds (Nat.not_lt.mp hhs) hh
    rw [encode_short _ hgs, encode_long _ (Nat.not_lt.mp hhs)] at he
    have hcode := ofNat_inj_of_lt (by omega) (by omega) (List.cons.inj he).1
    omega
  · have hb := length_bytes_bounds (Nat.not_lt.mp hgs) hg
    rw [encode_long _ (Nat.not_lt.mp hgs), encode_short _ hhs] at he
    have hcode := ofNat_inj_of_lt (by omega) (by omega) (List.cons.inj he).1
    omega
  · have hbg := length_bytes_bounds (Nat.not_lt.mp hgs) hg
    have hbh := length_bytes_bounds (Nat.not_lt.mp hhs) hh
    rw [encode_long _ (Nat.not_lt.mp hgs), encode_long _ (Nat.not_lt.mp hhs)] at he
    obtain ⟨hfirst, hrest⟩ := List.cons.inj he
    have hcode := ofNat_inj_of_lt (by omega) (by omega) hfirst
    obtain ⟨hdigits, hxy⟩ := List.append_inj hrest (by omega)
    refine ⟨build ?_ (toBigEndian_inj hdigits), hxy⟩
    rcases hgc with ⟨h1, _⟩ | ⟨h1, _⟩ <;> rcases hhc with ⟨h2, _⟩ | ⟨h2, _⟩ <;>
      first | exact h1.trans h2.symm | omega

/-- The first byte of a header tells lists, strings and plain bytes apart. -/
theorem Header.encode_head (h : Header) (hh : h.payloadLength < 2 ^ 64) :
    ∃ code tail, h.encode = code :: tail ∧ 0x80 ≤ code.toNat ∧
      (h.list = true ↔ 0xC0 ≤ code.toNat) := by
  have hc := h.codes
  by_cases hs : h.payloadLength < 56
  · refine ⟨_, _, encode_short h hs, ?_⟩
    rw [UInt8.toNat_ofNat', Nat.mod_eq_of_lt (by omega)]
    rcases hc with ⟨h1, h2, _⟩ | ⟨h1, h2, _⟩ <;> rw [h1, h2] <;> simp <;> omega
  · have hb := length_bytes_bounds (Nat.not_lt.mp hs) hh
    refine ⟨_, _, encode_long h (Nat.not_lt.mp hs), ?_⟩
    rw [UInt8.toNat_ofNat', Nat.mod_eq_of_lt (by omega)]
    rcases hc with ⟨h1, _, h2⟩ | ⟨h1, _, h2⟩ <;> rw [h1, h2] <;> simp <;> omega

theorem Header.encode_length_le (h : Header) (hh : h.payloadLength < 2 ^ 64) :
    h.encode.length ≤ 9 := by
  by_cases hs : h.payloadLength < 56
  · simp [encode_short h hs]
  · have := (length_bytes_bounds (Nat.not_lt.mp hs) hh).2
    rw [encode_long h (Nat.not_lt.mp hs), List.length_cons]
    omega

/-- A plain byte is not the start of any header. -/
theorem plain_ne_framed {b : UInt8} {h : Header} {u v : List UInt8} (small : b < 0x80)
    (fits : h.payloadLength < 2 ^ 64) : b :: u ≠ h.encode ++ v := by
  intro he
  obtain ⟨code, tail, hcode, hbig, _⟩ := h.encode_head fits
  rw [hcode] at he
  have hsame : b = code := (List.cons.inj he).1
  have := UInt8.lt_iff_toNat_lt.mp small
  simp only [hsame, UInt8.reduceToNat] at this
  omega

/-- One complete item: a plain byte, or a header with its whole payload. -/
inductive IsItem : List UInt8 → Prop where
  | byte (b : UInt8) (small : b < 0x80) : IsItem [b]
  | framed (h : Header) (payload : List UInt8) (fits : h.payloadLength < 2 ^ 64)
      (length : payload.length = h.payloadLength) : IsItem (h.encode ++ payload)

theorem IsItem.ne_nil {a : List UInt8} (ha : IsItem a) : a ≠ [] := by
  cases ha with
  | byte b small => simp
  | framed h payload fits length =>
      obtain ⟨code, tail, he, _⟩ := h.encode_head fits
      simp [he]

/-- No item is a proper initial part of another one. -/
theorem IsItem.append_inj {a b x y : List UInt8} (ha : IsItem a) (hb : IsItem b)
    (he : a ++ x = b ++ y) : a = b ∧ x = y := by
  cases ha with
  | byte c small =>
      cases hb with
      | byte d _ => simpa using he
      | framed h payload fits length =>
          rw [List.append_assoc] at he
          exact (plain_ne_framed small fits he).elim
  | framed g front gfits glength =>
      cases hb with
      | byte d small =>
          rw [List.append_assoc] at he
          exact (plain_ne_framed small gfits he.symm).elim
      | framed h payload fits length =>
          rw [List.append_assoc, List.append_assoc] at he
          obtain ⟨rfl, hrest⟩ := Header.encode_append_inj gfits fits he
          obtain ⟨rfl, hxy⟩ := List.append_inj hrest (glength.trans length.symm)
          exact ⟨rfl, hxy⟩

/-- A concatenation of items splits back into them in one way. -/
theorem flatten_inj {as bs : List (List UInt8)} (ha : ∀ a ∈ as, IsItem a)
    (hb : ∀ b ∈ bs, IsItem b) (he : as.flatten = bs.flatten) : as = bs := by
  induction as generalizing bs with
  | nil =>
      cases bs with
      | nil => rfl
      | cons b bs =>
          rw [List.flatten_nil, List.flatten_cons] at he
          exact ((hb b (by simp)).ne_nil (List.append_eq_nil_iff.mp he.symm).1).elim
  | cons a as ih =>
      cases bs with
      | nil =>
          rw [List.flatten_nil, List.flatten_cons] at he
          exact ((ha a (by simp)).ne_nil (List.append_eq_nil_iff.mp he).1).elim
      | cons b bs =>
          rw [List.flatten_cons, List.flatten_cons] at he
          obtain ⟨rfl, hrest⟩ := (ha a (by simp)).append_inj (hb b (by simp)) he
          rw [ih (fun c hc => ha c (.tail _ hc))
            (fun c hc => hb c (.tail _ hc)) hrest]

/-- Apart from the single plain byte, a string is its header and its bytes. -/
theorem encodeBytes_cases (bytes : List UInt8) :
    (∃ b, bytes = [b] ∧ b < 0x80 ∧ encodeBytes bytes = [b]) ∨
      encodeBytes bytes = Header.encode ⟨false, bytes.length⟩ ++ bytes := by
  match bytes with
  | [] => exact .inr rfl
  | [b] =>
      by_cases hb : b < 0x80
      · exact .inl ⟨b, rfl, hb, by simp [encodeBytes, hb]⟩
      · exact .inr (by simp [encodeBytes, hb])
  | _ :: _ :: _ => exact .inr rfl

theorem encodeBytes_isItem (bytes : List UInt8) (h : bytes.length < 2 ^ 64) :
    IsItem (encodeBytes bytes) := by
  rcases encodeBytes_cases bytes with ⟨b, _, small, he⟩ | he
  · rw [he]
    exact IsItem.byte b small
  · rw [he]
    exact IsItem.framed _ bytes h rfl

theorem encodeList_isItem {items : List (List UInt8)} (h : items.flatten.length < 2 ^ 64) :
    IsItem (encodeList items) :=
  IsItem.framed _ _ h rfl

/-- Encodings are never shorter than what they encode. -/
theorem length_le_encodeBytes (bytes : List UInt8) : bytes.length ≤ (encodeBytes bytes).length := by
  rcases encodeBytes_cases bytes with ⟨b, rfl, _, he⟩ | he
  · simp [he]
  · rw [he, List.length_append]
    omega

theorem encodeBytes_length_le (bytes : List UInt8) (h : bytes.length < 2 ^ 64) :
    (encodeBytes bytes).length ≤ bytes.length + 9 := by
  rcases encodeBytes_cases bytes with ⟨b, rfl, _, he⟩ | he
  · simp [he]
  · have := Header.encode_length_le ⟨false, bytes.length⟩ h
    rw [he, List.length_append]
    omega

/-- The string form determines the string. -/
theorem encodeBytes_inj {a b : List UInt8} (ha : a.length < 2 ^ 64) (hb : b.length < 2 ^ 64)
    (he : encodeBytes a = encodeBytes b) : a = b := by
  rcases encodeBytes_cases a with ⟨c, rfl, hc, hea⟩ | hea <;>
    rcases encodeBytes_cases b with ⟨d, rfl, hd, heb⟩ | heb <;> rw [hea, heb] at he
  · exact he
  · exact (plain_ne_framed hc hb he).elim
  · exact (plain_ne_framed hd ha he.symm).elim
  · exact (Header.encode_append_inj ha hb he).2

/-- A string is never also a list. -/
theorem encodeBytes_ne_encodeList {bytes : List UInt8} {items : List (List UInt8)}
    (hb : bytes.length < 2 ^ 64) (hi : items.flatten.length < 2 ^ 64) :
    encodeBytes bytes ≠ encodeList items := by
  intro he
  obtain ⟨code, tail, hcode, hbig, hlist⟩ := Header.encode_head ⟨true, items.flatten.length⟩ hi
  rw [encodeList, hcode] at he
  have hcode' : 0xC0 ≤ code.toNat := hlist.mp rfl
  rcases encodeBytes_cases bytes with ⟨b, _, small, hb'⟩ | hb'
  · rw [hb'] at he
    have := UInt8.lt_iff_toNat_lt.mp small
    simp only [(List.cons.inj he).1, UInt8.reduceToNat] at this
    omega
  · obtain ⟨code', tail', hcode'', _, hlist'⟩ := Header.encode_head ⟨false, bytes.length⟩ hb
    rw [hb', hcode''] at he
    have hsame : code' = code := (List.cons.inj he).1
    rw [hsame] at hlist'
    simp [hcode'] at hlist'

/-- Lists of items are determined by their encoding. -/
theorem encodeList_inj {as bs : List (List UInt8)} (ha : ∀ a ∈ as, IsItem a)
    (hb : ∀ b ∈ bs, IsItem b) (hal : as.flatten.length < 2 ^ 64)
    (hbl : bs.flatten.length < 2 ^ 64) (he : encodeList as = encodeList bs) : as = bs :=
  flatten_inj ha hb (Header.encode_append_inj hal hbl he).2

theorem flatten_length_le_encodeList (items : List (List UInt8)) :
    items.flatten.length ≤ (encodeList items).length := by
  rw [encodeList, List.length_append]
  omega

theorem encodeList_length_le (items : List (List UInt8)) (h : items.flatten.length < 2 ^ 64) :
    (encodeList items).length ≤ items.flatten.length + 9 := by
  have := Header.encode_length_le ⟨true, items.flatten.length⟩ h
  rw [encodeList, List.length_append]
  omega

/-- A list of known size determines any other list with the same encoding, as
the encoding bounds the sizes of the other one too. -/
theorem encodeList_inj_of_fits {as bs : List (List UInt8)} (hbl : bs.flatten.length + 9 < 2 ^ 64)
    (ha : as.flatten.length < 2 ^ 64 → ∀ a ∈ as, IsItem a) (hb : ∀ b ∈ bs, IsItem b)
    (he : encodeList as = encodeList bs) : as = bs := by
  have hal : as.flatten.length < 2 ^ 64 := by
    have h1 := flatten_length_le_encodeList as
    have h2 := encodeList_length_le bs (by omega)
    rw [he] at h1
    omega
  exact encodeList_inj (ha hal) hb hal (by omega) he

end Rlp
