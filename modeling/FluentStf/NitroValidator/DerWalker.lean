import FluentStf.Reader
import FluentStf.Cbor

/-! The DER walker of the attestation validator, and the part of a certificate it reads. -/
namespace FluentStf.NitroValidator.DerWalker

def readU8 : Reader UInt8 := Reader.readU8 "der: eof"

def readBytes (n : Nat) : Reader Bytes := Reader.readBytes "der: overflow" "der: eof" n

/-- One more byte of a length, most significant first. -/
def lengthByte (len : Nat) : Reader Nat := do
  let b ← readU8
  return (len <<< 8) ||| b.toNat

def readLen : Reader Nat := do
  let b ← readU8
  if b < 0x80 then
    return b.toNat
  else
    Reader.check (0 < (b &&& 0x7f).toNat ∧ (b &&& 0x7f).toNat ≤ 4) "der: absurd length encoding"
    Reader.times lengthByte (b &&& 0x7f).toNat 0

/-- A tag and the content behind its length. -/
def readTagged : Reader (UInt8 × Bytes) := do
  let tag ← readU8
  let len ← readLen
  let content ← readBytes len
  return (tag, content)

/-- `(tag, content, raw_tlv)`. -/
def readTlv : Reader (UInt8 × Bytes × Bytes) := fun c => do
  let ((tag, content), d) ← readTagged c
  return ((tag, content, c.rest.take (d.pos - c.pos)), d)

def expect (expectedTag : UInt8) : Reader Bytes := do
  let (tag, content, _) ← readTlv
  Reader.check (tag = expectedTag) "der: unexpected tag"
  return content

/-- One element whose bytes are kept with tag and length. -/
def expectRaw (expectedTag : UInt8) (message : String) : Reader Bytes := do
  let (tag, _, raw) ← readTlv
  Reader.check (tag = expectedTag) message
  return raw

/-- The body of the algorithm identifier of `ecdsa-with-SHA384`. -/
def ecdsaWithSha384AlgidBody : Bytes :=
  [0x06, 0x08, 0x2a, 0x86, 0x48, 0xce, 0x3d, 0x04, 0x03, 0x03]

/-- What the validator takes from a certificate. Names are kept as DER. -/
structure ParsedTbs where
  issuer : Bytes
  subject : Bytes
  spki : Bytes
deriving DecidableEq

/-- The version is an optional element with tag `[0]`. -/
def skipVersion : Reader Unit := fun c =>
  if c.peek = some 0xa0 then (do let _ ← readTlv; return () : Reader Unit) c
  else .ok ((), c)

def serialNumber : Reader Bytes := do
  skipVersion
  expect 0x02

/-- The point of a key info: the bits behind a count of unused bits that must be zero. -/
def spkiPoint : Reader Bytes := do
  let _ ← expect 0x30
  let bitString ← expect 0x03
  Reader.check (bitString.length = 98) "tbs: spki BIT STRING not 98 bytes"
  Reader.check (bitString[0]? = some 0x00) "tbs: spki unused-bits must be 0"
  Reader.check (bitString[1]? = some 0x04) "tbs: spki not uncompressed P-384 point"
  return bitString.drop 1

def tbsFields : Reader ParsedTbs := do
  let _ ← serialNumber
  let sigalg ← expect 0x30
  Reader.check (sigalg = ecdsaWithSha384AlgidBody)
    "tbs: signature algorithm not ecdsa-with-SHA384"
  let issuerRaw ← expectRaw 0x30 "tbs: issuer not SEQUENCE"
  let _ ← expectRaw 0x30 "tbs: validity not SEQUENCE"
  let subjectRaw ← expectRaw 0x30 "tbs: subject not SEQUENCE"
  let spkiBody ← expect 0x30
  let spki ← Reader.within spkiPoint spkiBody
  return ⟨issuerRaw, subjectRaw, spki⟩

def parseTbs (tbs : Bytes) : Except String ParsedTbs := do
  let ((tag, body, _), outer) ← readTlv ⟨0, tbs⟩
  if tag ≠ 0x30 then .error "tbs: outer not SEQUENCE"
  else if outer.rest ≠ [] then .error "tbs: trailing bytes after SEQUENCE"
  else do
    let (parsed, _) ← tbsFields ⟨0, body⟩
    return parsed

/-! Lengths and elements -/

/-- A length in its short form, or in the long form with one to four bytes. -/
inductive LengthBytes : Nat → Bytes → Prop
  | short {n : Nat} (h : n < 0x80) : LengthBytes n [UInt8.ofNat n]
  | long {digits : Bytes} (hpos : 0 < digits.length) (hmax : digits.length ≤ 4) :
      LengthBytes (Rlp.ofBigEndian digits) (UInt8.ofNat (0x80 + digits.length) :: digits)

/-- One element: tag, length and content. -/
def IsTlv (tag : UInt8) (content raw : Bytes) : Prop :=
  ∃ len, LengthBytes content.length len ∧ raw = tag :: (len ++ content)

section Elements

theorem recognises_lengthByte (len : Nat) : Recognises (lengthByte len)
    (fun n bytes => ∃ b : UInt8, bytes = [b] ∧ n = len * 256 + b.toNat) := by
  have hor : ∀ b : UInt8, (len <<< 8) ||| b.toNat = len * 256 + b.toNat := by
    intro b
    rw [← Nat.shiftLeft_add_eq_or_of_lt b.toNat_lt, Nat.shiftLeft_eq]
  refine (Reads.readU8 _).map.mono ?_ ?_
  · rintro n bytes ⟨b, rfl, rfl⟩
    exact ⟨b, (hor b).symm, rfl⟩
  · rintro n bytes ⟨b, rfl, rfl⟩
    exact ⟨b, rfl, hor b⟩

/-- The bytes of a length are read into one number. -/
theorem parts_lengthBytes_iff {len n : Nat} {parts : List Bytes} :
    Parts (fun len n bytes => ∃ b : UInt8, bytes = [b] ∧ n = len * 256 + b.toNat) len parts n ↔
      ∃ digits : Bytes, parts = digits.map (fun b => [b]) ∧
        n = len * 256 ^ digits.length + Rlp.ofBigEndian digits := by
  have hstep : ∀ (b : UInt8) (digits : Bytes), (len : Nat) → (len * 256 + b.toNat) *
      256 ^ digits.length + Rlp.ofBigEndian digits =
      len * 256 ^ (b :: digits).length + Rlp.ofBigEndian (b :: digits) := by
    intro b digits len
    rw [Rlp.ofBigEndian_cons, List.length_cons, Nat.pow_succ]
    ring
  constructor
  · intro h
    induction h with
    | nil len => exact ⟨[], rfl, by simp [Rlp.ofBigEndian]⟩
    | cons head _ ih =>
        obtain ⟨b, rfl, rfl⟩ := head
        obtain ⟨digits, rfl, rfl⟩ := ih
        exact ⟨b :: digits, rfl, hstep b digits _⟩
  · rintro ⟨digits, rfl, rfl⟩
    induction digits generalizing len with
    | nil =>
        have hsame : len * 256 ^ ([] : Bytes).length + Rlp.ofBigEndian [] = len := by
          simp [Rlp.ofBigEndian]
        rw [hsame]
        exact .nil _
    | cons b digits ih =>
        rw [← hstep b digits len]
        exact .cons ⟨b, rfl, rfl⟩ ih

theorem flatten_singletons (digits : Bytes) : (digits.map fun b => [b]).flatten = digits := by
  rw [← List.flatMap_def, List.flatMap_singleton']

/-- The low bits of the first byte of a long form count the bytes behind it. -/
theorem lengthCount (b : UInt8) : (b &&& 0x7f).toNat = b.toNat % 128 := by
  rw [UInt8.toNat_and, show (0x7f : UInt8).toNat = 2 ^ 7 - 1 from rfl,
    Nat.and_two_pow_sub_one_eq_mod]

theorem recognises_lengthBytes (count : Nat) : Recognises (Reader.times lengthByte count 0)
    (fun n bytes => bytes.length = count ∧ n = Rlp.ofBigEndian bytes) := by
  refine (Reads.times recognises_lengthByte count 0).mono ?_ ?_
  · rintro n bytes ⟨rfl, rfl⟩
    exact ⟨_, List.length_map _, (flatten_singletons bytes).symm,
      parts_lengthBytes_iff.mpr ⟨bytes, rfl, by simp⟩⟩
  · rintro n bytes ⟨parts, rfl, rfl, hparts⟩
    obtain ⟨digits, rfl, rfl⟩ := parts_lengthBytes_iff.mp hparts
    rw [flatten_singletons, List.length_map]
    exact ⟨rfl, by simp⟩

theorem recognises_readLen : Recognises readLen LengthBytes := by
  have hrest : ∀ b : UInt8, Recognises (if b < 0x80 then return b.toNat else do
      Reader.check (0 < (b &&& 0x7f).toNat ∧ (b &&& 0x7f).toNat ≤ 4) "der: absurd length encoding"
      Reader.times lengthByte (b &&& 0x7f).toNat 0)
      (fun n bytes => LengthBytes n (b :: bytes)) := by
    intro b
    split
    · next hshort =>
        have hlt : b.toNat < 0x80 := UInt8.lt_iff_toNat_lt.mp hshort
        refine (Reads.pure b.toNat).mono ?_ ?_
        · intro n bytes h
          cases h with
          | short h =>
              refine ⟨?_, rfl⟩
              rw [UInt8.toNat_ofNat', Nat.mod_eq_of_lt (by omega)]
          | long hpos hmax =>
              rw [UInt8.toNat_ofNat', Nat.mod_eq_of_lt (by omega)] at hlt
              omega
        · rintro n bytes ⟨rfl, rfl⟩
          have h := LengthBytes.short hlt
          rwa [UInt8.ofNat_toNat] at h
    · next hlong =>
        have hge : 0x80 ≤ b.toNat := by
          exact Nat.le_of_not_lt fun h => hlong (UInt8.lt_iff_toNat_lt.mpr h)
        have hlt := b.toNat_lt
        rw [lengthCount]
        refine (Reads.check_bind fun _ => recognises_lengthBytes _).mono ?_ ?_
        · intro n bytes h
          cases h with
          | short h =>
              rw [UInt8.toNat_ofNat', Nat.mod_eq_of_lt (by omega)] at hge
              omega
          | long hpos hmax =>
              have hcount : (UInt8.ofNat (0x80 + bytes.length)).toNat % 128 = bytes.length := by
                rw [UInt8.toNat_ofNat']
                omega
              rw [hcount]
              exact ⟨⟨hpos, hmax⟩, rfl, rfl⟩
        · rintro n bytes ⟨⟨hpos, hmax⟩, hlength, rfl⟩
          have hbyte : UInt8.ofNat (0x80 + bytes.length) = b := by
            apply UInt8.toNat_inj.mp
            rw [UInt8.toNat_ofNat', Nat.mod_eq_of_lt (by omega)]
            omega
          rw [← hbyte]
          exact .long (by omega) (by omega)
  refine ((Reads.readU8 _).bind hrest).mono ?_ ?_
  · intro n bytes h
    cases h with
    | short h => exact ⟨_, [_], [], rfl, rfl, .short h⟩
    | long hpos hmax => exact ⟨_, [_], _, rfl, rfl, .long hpos hmax⟩
  · rintro n bytes ⟨b, _, rest, rfl, rfl, h⟩
    exact h

theorem recognises_readTagged :
    Recognises readTagged (fun p bytes => IsTlv p.1 p.2 bytes) := by
  refine ((Reads.readU8 _).bind fun tag => recognises_readLen.bind fun len =>
    (Reads.readBytes _ _ len).map).mono ?_ ?_
  · rintro ⟨tag, content⟩ bytes ⟨len, hlen, rfl⟩
    exact ⟨tag, [tag], _, rfl, rfl, content.length, len, content, rfl, hlen, content, rfl, rfl, rfl⟩
  · rintro p bytes ⟨tag, _, _, rfl, rfl, n, len, _, rfl, hlen, content, rfl, rfl, rfl⟩
    exact ⟨len, hlen, rfl⟩

theorem recognises_readTlv :
    Recognises readTlv (fun p bytes => IsTlv p.1 p.2.1 bytes ∧ p.2.2 = bytes) where
  sound := fun {c p d} hr => by
    obtain ⟨⟨⟨tag, content⟩, d'⟩, htagged, hpure⟩ := bind_eq_ok.mp hr
    cases hpure
    obtain ⟨taken, htlv, hpast⟩ := recognises_readTagged.sound htagged
    refine ⟨taken, ⟨htlv, ?_⟩, hpast⟩
    simp only
    rw [hpast.1, hpast.2, Nat.add_sub_cancel_left, List.take_left]
  complete := by
    rintro c ⟨tag, content, raw⟩ d taken hfits ⟨htlv, rfl⟩ hpast
    have htagged := recognises_readTagged.complete (x := (tag, content)) hfits htlv hpast
    refine bind_eq_ok.mpr ⟨_, htagged, ?_⟩
    simp only
    rw [hpast.1, hpast.2, Nat.add_sub_cancel_left, List.take_left]
    rfl

theorem recognises_expect (expectedTag : UInt8) :
    Recognises (expect expectedTag) (IsTlv expectedTag) := by
  refine (recognises_readTlv.bind fun p => Reads.check_bind fun _ => Reads.pure p.2.1).mono ?_ ?_
  · intro content bytes htlv
    exact ⟨(expectedTag, content, bytes), bytes, [], (List.append_nil _).symm, ⟨htlv, rfl⟩, rfl,
      rfl, rfl⟩
  · rintro content bytes ⟨⟨tag, _, _⟩, raw, _, rfl, ⟨htlv, -⟩, rfl, rfl, rfl⟩
    rwa [List.append_nil]

theorem recognises_expectRaw (expectedTag : UInt8) (message : String) :
    Recognises (expectRaw expectedTag message)
      (fun raw bytes => raw = bytes ∧ ∃ content, IsTlv expectedTag content bytes) := by
  refine (recognises_readTlv.bind fun p => Reads.check_bind fun _ => Reads.pure p.2.2).mono ?_ ?_
  · rintro raw bytes ⟨rfl, content, htlv⟩
    exact ⟨(expectedTag, content, raw), raw, [], (List.append_nil _).symm, ⟨htlv, rfl⟩, rfl, rfl,
      rfl⟩
  · rintro raw bytes ⟨⟨tag, content, _⟩, bytes', _, rfl, ⟨htlv, rfl⟩, rfl, rfl, rfl⟩
    rw [List.append_nil]
    exact ⟨rfl, content, htlv⟩

end Elements

/-! The part of a certificate that is signed -/

/-- The start of a key info: an algorithm, then the point as a bit string without unused bits. -/
def PointBytes (point bytes : Bytes) : Prop :=
  ∃ algorithm a b, bytes = a ++ b ∧ IsTlv 0x30 algorithm a ∧ IsTlv 0x03 (0x00 :: point) b ∧
    point.length = 97 ∧ point.head? = some 0x04

/-- The fields of a certificate in the order of X.509, up to the key info. -/
inductive TbsBytes (parsed : ParsedTbs) : Bytes → Prop
  | fields {version serial algorithm validity keyInfo info : Bytes}
      (hversion : version = [] ∨ ∃ content, IsTlv 0xa0 content version)
      (hserial : ∃ content, IsTlv 0x02 content serial)
      (halgorithm : IsTlv 0x30 ecdsaWithSha384AlgidBody algorithm)
      (hissuer : ∃ content, IsTlv 0x30 content parsed.issuer)
      (hvalidity : ∃ content, IsTlv 0x30 content validity)
      (hsubject : ∃ content, IsTlv 0x30 content parsed.subject)
      (hkeyInfo : IsTlv 0x30 info keyInfo)
      (hpoint : ∃ a b, info = a ++ b ∧ PointBytes parsed.spki a) :
      TbsBytes parsed (version ++ serial ++ (algorithm ++ (parsed.issuer ++ (validity ++
        (parsed.subject ++ keyInfo)))))

/-- One sequence that starts with those fields and has nothing behind it. -/
def IsTbs (parsed : ParsedTbs) (tbs : Bytes) : Prop :=
  ∃ body a b, IsTlv 0x30 body tbs ∧ body = a ++ b ∧ TbsBytes parsed a

section Certificate

variable {tag : UInt8} {content raw tbs : Bytes} {parsed : ParsedTbs}

theorem LengthBytes.lt {n : Nat} {bytes : Bytes} (h : LengthBytes n bytes) : n < 2 ^ 32 := by
  cases h with
  | short h => omega
  | @long digits _ hmax =>
      have hlt := Rlp.ofBigEndian_lt digits
      have hpow : 256 ^ digits.length ≤ 256 ^ 4 := Nat.pow_le_pow_right (by omega) hmax
      omega

theorem IsTlv.length_lt (h : IsTlv tag content raw) : content.length < 2 ^ 32 := by
  obtain ⟨len, hlen, -⟩ := h
  exact hlen.lt

theorem recognises_spkiPoint : Recognises spkiPoint PointBytes := by
  refine ((recognises_expect 0x30).bind fun _ => (recognises_expect 0x03).bind fun bits =>
    Reads.check_bind fun _ => Reads.check_bind fun _ => Reads.check_bind fun _ =>
      Reads.pure (bits.drop 1)).mono ?_ ?_
  · rintro point bytes ⟨algorithm, a, b, rfl, ha, hb, hlength, hhead⟩
    refine ⟨algorithm, a, b, rfl, ha, 0x00 :: point, b, [], (List.append_nil _).symm, hb, ?_, rfl,
      ?_, rfl, rfl⟩
    · rw [List.length_cons, hlength]
    · rwa [List.getElem?_cons_succ, ← List.head?_eq_getElem?]
  · rintro point bytes ⟨algorithm, a, _, rfl, ha, bits, b, _, rfl, hb, hlength, hzero, hfour, rfl,
      rfl⟩
    rw [List.append_nil]
    cases bits with
    | nil => cases hzero
    | cons unused point =>
        obtain rfl : unused = 0x00 := Option.some.inj hzero
        refine ⟨algorithm, a, b, rfl, ha, hb, Nat.succ_inj.mp hlength, ?_⟩
        rwa [List.getElem?_cons_succ, ← List.head?_eq_getElem?] at hfour

/-- The version is told from the serial number by its tag. -/
theorem recognises_serialNumber : Recognises serialNumber (fun serial bytes =>
    ∃ a b, bytes = a ++ b ∧ (a = [] ∨ ∃ content, IsTlv 0xa0 content a) ∧ IsTlv 0x02 serial b) where
  sound := fun {c serial d} hr => by
    obtain ⟨⟨⟨⟩, c'⟩, hversion, hserial⟩ := bind_eq_ok.mp hr
    obtain ⟨b, hb, hpast⟩ := (recognises_expect 0x02).sound hserial
    unfold skipVersion at hversion
    split at hversion
    · next hpeek =>
        obtain ⟨a, ⟨⟨tag, content, raw⟩, -, ⟨len, hlen, rfl⟩, -⟩, hpast'⟩ :=
          recognises_readTlv.map.sound hversion
        rw [hpast'.peek_cons] at hpeek
        obtain rfl := Option.some.inj hpeek
        exact ⟨_, ⟨_, b, rfl, .inr ⟨content, len, hlen, rfl⟩, hb⟩, hpast'.trans hpast⟩
    · cases hversion
      exact ⟨b, ⟨[], b, rfl, .inl rfl, hb⟩, hpast⟩
  complete := by
    rintro c serial d _ hfits ⟨a, b, rfl, ha, hb⟩ hpast
    obtain ⟨hfirst, hsecond⟩ := hpast.split
    have hserial := (recognises_expect 0x02).complete (hfirst.fits hfits) hb hsecond
    refine bind_eq_ok.mpr ⟨((), ⟨c.pos + a.length, b ++ d.rest⟩), ?_, hserial⟩
    unfold skipVersion
    rcases ha with rfl | ⟨content, htlv⟩
    · have hpeek : c.peek ≠ some 0xa0 := by
        obtain ⟨len, hlen, rfl⟩ := hb
        rw [List.nil_append] at hpast
        rw [hpast.peek_cons]
        decide
      rw [if_neg hpeek, hfirst.eq_of_nil]
    · have hpeek : c.peek = some 0xa0 := by
        obtain ⟨len, hlen, rfl⟩ := htlv
        exact hfirst.peek_cons
      rw [if_pos hpeek]
      exact recognises_readTlv.map.complete hfits ⟨(0xa0, content, a), rfl, htlv, rfl⟩ hfirst

theorem recognises_tbsFields : Recognises tbsFields TbsBytes := by
  refine (recognises_serialNumber.bind fun _ => (recognises_expect 0x30).bind fun _ =>
    Reads.check_bind fun _ => (recognises_expectRaw 0x30 _).bind fun _ =>
    (recognises_expectRaw 0x30 _).bind fun _ => (recognises_expectRaw 0x30 _).bind fun _ =>
    (recognises_expect 0x30).bind fun info => (recognises_spkiPoint.within info).map).mono ?_ ?_
  · intro parsed bytes h
    cases h with
    | @fields version serial algorithm validity keyInfo info hversion hserial halgorithm hissuer
        hvalidity hsubject hkeyInfo hpoint =>
        obtain ⟨serialContent, hserial⟩ := hserial
        exact ⟨serialContent, _, _, rfl, ⟨version, serial, rfl, hversion, hserial⟩,
          _, _, _, rfl, halgorithm, rfl, parsed.issuer, _, _, rfl, ⟨rfl, hissuer⟩,
          validity, _, _, rfl, ⟨rfl, hvalidity⟩, parsed.subject, _, _, rfl, ⟨rfl, hsubject⟩,
          info, keyInfo, [], (List.append_nil _).symm, hkeyInfo, parsed.spki, rfl, rfl,
          hkeyInfo.length_lt.trans (by decide), hpoint⟩
  · rintro parsed bytes ⟨serialContent, _, _, rfl, ⟨version, serial, rfl, hversion, hserial⟩,
      _, algorithm, _, rfl, halgorithm, rfl, issuer, _, _, rfl, ⟨rfl, hissuer⟩,
      validity, _, _, rfl, ⟨rfl, hvalidity⟩, subject, _, _, rfl, ⟨rfl, hsubject⟩,
      info, keyInfo, _, rfl, hkeyInfo, spki, rfl, rfl, hpoint⟩
    rw [List.append_nil]
    exact .fields hversion ⟨serialContent, hserial⟩ halgorithm hissuer hvalidity hsubject hkeyInfo
      hpoint

theorem parseTbs_sound (h : parseTbs tbs = .ok parsed) : IsTbs parsed tbs := by
  obtain ⟨⟨⟨tag, body, raw⟩, outer⟩, htlv, hrest⟩ := bind_eq_ok.mp h
  obtain ⟨taken, htbs, hbody, -⟩ := recognises_readTlv.run_sound htlv
  simp only at hrest hbody
  split at hrest
  · cases hrest
  · next htag =>
      split at hrest
      · cases hrest
      · next hempty =>
          obtain ⟨⟨parsed', d⟩, hfields, hpure⟩ := bind_eq_ok.mp hrest
          cases hpure
          obtain ⟨a, hsplit, hTbs⟩ := recognises_tbsFields.run_sound hfields
          rw [not_not.mp hempty, List.append_nil] at htbs
          rw [not_not.mp htag, ← htbs] at hbody
          exact ⟨body, a, d.rest, hbody, hsplit, hTbs⟩

theorem parseTbs_complete (h : IsTbs parsed tbs) (hlength : tbs.length < 2 ^ 64) :
    parseTbs tbs = .ok parsed := by
  obtain ⟨body, a, b, hbody, rfl, hTbs⟩ := h
  have htlv := recognises_readTlv.run_complete (b := []) (x := (0x30, a ++ b, tbs)) ⟨hbody, rfl⟩
    (by rwa [List.append_nil])
  rw [List.append_nil] at htlv
  have hfields := recognises_tbsFields.run_complete hTbs (hbody.length_lt.trans (by decide))
  refine bind_eq_ok.mpr ⟨_, htlv, ?_⟩
  simp only [ne_eq, not_true_eq_false, if_false]
  exact bind_eq_ok.mpr ⟨_, hfields, rfl⟩

end Certificate

end FluentStf.NitroValidator.DerWalker
