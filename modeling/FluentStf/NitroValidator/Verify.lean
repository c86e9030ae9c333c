import FluentStf.NitroValidator.Attestation
import FluentStf.NitroValidator.DerWalker
import FluentStf.NitroValidator.SignedMessages

/-! The attestation validator: a chain of certificates from the root to the key that signed the
attestation document. -/
namespace FluentStf.NitroValidator

open DerWalker

structure CertData where
  tbs : Bytes
  signature : Bytes

/-- What the host hands to the validator. Nothing in it is trusted. -/
structure GuestInput where
  rootPubkey : Bytes
  rootSubject : Bytes
  /-- From the first intermediate certificate to the leaf. -/
  chain : List CertData
  coseProtected : Bytes
  cosePayload : Bytes
  coseSignature : Bytes

inductive Network where
  | mainnet
  | testnet

def expectedRootPubkeyHash : Bytes := [
  0x70, 0x86, 0x37, 0xb2, 0xaf, 0xd0, 0xda, 0x2a,
  0xfb, 0xcf, 0x8b, 0xf6, 0xe1, 0xe4, 0x28, 0x0c,
  0x28, 0xe7, 0xa0, 0xa9, 0xc2, 0x57, 0xdd, 0x8b,
  0xd4, 0x7a, 0x39, 0x48, 0xb4, 0x11, 0xeb, 0x2c,
  0x4d, 0x61, 0xf9, 0x0e, 0x79, 0xbe, 0x5f, 0x51,
  0x0a, 0xb1, 0xae, 0x24, 0x15, 0x14, 0xb6, 0x83]

def expectedRootSubjectHash : Bytes := [
  0xfe, 0x19, 0xf1, 0x6b, 0x73, 0xdc, 0xfd, 0xf7,
  0xad, 0xa6, 0x86, 0xb2, 0x6f, 0xbc, 0x26, 0x80,
  0x0e, 0x8b, 0x49, 0x33, 0xa0, 0xc1, 0xe7, 0xa9,
  0xb4, 0x0c, 0xd4, 0xea, 0x80, 0x9f, 0x18, 0x29,
  0xdc, 0x48, 0x8e, 0x14, 0x75, 0x3c, 0xbd, 0xe8,
  0x76, 0x86, 0xc4, 0xd9, 0x34, 0x39, 0xf0, 0x3e]

def expectedPcr0 : Network → Bytes
  | .mainnet => [
    0x9a, 0x4a, 0xdc, 0xaf, 0x3e, 0x87, 0x04, 0x34,
    0xa1, 0x32, 0xa7, 0x75, 0xd1, 0xee, 0x2b, 0x09,
    0x40, 0x57, 0xfb, 0xf1, 0xcd, 0x04, 0x6c, 0x4c,
    0xfe, 0x28, 0x12, 0x06, 0x6e, 0xc2, 0x0f, 0xf1,
    0x3c, 0xf2, 0x3b, 0x33, 0x70, 0xa3, 0xa6, 0x0c,
    0x43, 0xbc, 0xfa, 0x97, 0x91, 0x02, 0x1e, 0x4a]
  | .testnet => [
    0xf7, 0xc3, 0x97, 0xbf, 0x0a, 0x85, 0x8e, 0xc5,
    0x13, 0x67, 0x7c, 0xe2, 0x07, 0x76, 0x29, 0x84,
    0xd7, 0xcb, 0xba, 0x51, 0xa3, 0xb1, 0x41, 0xb7,
    0x98, 0x90, 0xd5, 0x9f, 0xc3, 0xef, 0x45, 0x04,
    0x7b, 0x5a, 0x82, 0xf1, 0xcb, 0x57, 0x04, 0xc6,
    0xa0, 0x29, 0x96, 0x6f, 0x95, 0x10, 0xb4, 0xe3]

/-- Hashes and P-384 signatures, which the validator takes from other libraries. -/
structure Libs (Key Sig : Type) where
  sha384 : Bytes → Bytes
  keccak256 : Bytes → B256
  fromSec1Bytes : Bytes → Option Key
  signatureFromDer : Bytes → Option Sig
  signatureFromBytes : Bytes → Option Sig
  verifyDigest : Key → Bytes → Sig → Bool

section Verify

variable {Key Sig : Type} (libs : Libs Key Sig)

def verifyP384Der (issuerKey data sigBytes : Bytes) : Except String Unit :=
  match libs.fromSec1Bytes issuerKey with
  | none => .error "invalid issuer pubkey"
  | some vk =>
      match libs.signatureFromDer sigBytes with
      | none => .error "invalid DER signature"
      | some sig =>
          if libs.verifyDigest vk (libs.sha384 data) sig then .ok ()
          else .error "DER signature verification failed"

/-- The signature is the two numbers one after the other, not DER. -/
def verifyP384Raw (issuerKey data sigBytes : Bytes) : Except String Unit :=
  match libs.fromSec1Bytes issuerKey with
  | none => .error "invalid issuer pubkey"
  | some vk =>
      if sigBytes.length ≠ 96 then .error "raw P-384 signature must be 96 bytes"
      else
        match libs.signatureFromBytes sigBytes with
        | none => .error "invalid raw signature"
        | some sig =>
            if libs.verifyDigest vk (libs.sha384 data) sig then .ok ()
            else .error "raw signature verification failed"

/-- The subject that must have issued the certificate at an index: the previous certificate is
parsed a second time. -/
def prevSubject (input : GuestInput) : Nat → Except String Bytes
  | 0 => .ok input.rootSubject
  | i + 1 =>
      match input.chain[i]? with
      | none => .error "index out of bounds"
      | some prev => do
          let parsed ← parseTbs prev.tbs
          return parsed.subject

/-- One round of the loop over the chain: the key that the next certificate must verify under. -/
def checkCert (input : GuestInput) (issuerKey : Bytes) (cert : CertData × Nat) :
    Except String Bytes := do
  let parsed ← parseTbs cert.1.tbs
  let subject ← prevSubject input cert.2
  if parsed.issuer ≠ subject then .error "issuer/subject linkage"
  else do
    verifyP384Der libs issuerKey cert.1.tbs cert.1.signature
    return parsed.spki

/-- The address of the enclave's key as an ABI word, and the time in seconds. -/
def attested (network : Network) (doc : Bytes × Bytes × Nat) : Except String (Bytes × Nat) :=
  let (pcr0, userData, timestampMs) := doc
  if pcr0 ≠ expectedPcr0 network then .error "PCR0 mismatch"
  else if userData.length ≠ 65 then .error "user_data must be 65 bytes"
  else if userData[0]? ≠ some 0x04 then .error "user_data not uncompressed key"
  else if timestampMs = 0 then .error "attestation timestamp must be non-zero"
  else .ok (List.replicate 12 0 ++ (libs.keccak256 (userData.drop 1)).bytes.drop 12,
    timestampMs / 1000)

/-- Check root, chain, signature and document. The answer is the address and the time in seconds. -/
def verify (network : Network) (input : GuestInput) : Except String (Bytes × Nat) :=
  if libs.sha384 input.rootPubkey ≠ expectedRootPubkeyHash then
    .error "root CA pubkey hash mismatch"
  else if libs.sha384 input.rootSubject ≠ expectedRootSubjectHash then
    .error "root CA subject hash mismatch"
  else if input.rootPubkey.length ≠ 97 then .error "root pubkey must be 97 bytes"
  else if input.chain.isEmpty then .error "empty cert chain"
  else do
    let leafKey ← input.chain.zipIdx.foldlM (checkCert libs input) input.rootPubkey
    verifyP384Raw libs leafKey (buildSigStructure input.coseProtected input.cosePayload)
      input.coseSignature
    let doc ← parseAttestationDoc input.cosePayload
    attested libs network doc

/-! What success means -/

/-- The key verifies a signature of the data. -/
def Verifies (key data : Bytes) (sig : Option Sig) : Prop :=
  ∃ vk s, libs.fromSec1Bytes key = some vk ∧ sig = some s ∧
    libs.verifyDigest vk (libs.sha384 data) s = true

/-- A certificate that binds the second key to the second subject, issued by the first subject
with the first key. -/
structure Links (cert : CertData) (subject key subject' key' : Bytes) : Prop where
  tbs : IsTbs ⟨subject, subject', key'⟩ cert.tbs
  signed : Verifies libs key cert.tbs (libs.signatureFromDer cert.signature)

/-- An unbroken chain from the root to the attestation document that holds the address and the
time. Subject and key `0` are those of the root, subject and key `i + 1` those of the
certificate at index `i`. -/
structure Attested (network : Network) (input : GuestInput) (addr : Bytes) (ts : Nat)
    (subjects keys : Nat → Bytes) (userData : Bytes) (timestampMs : Nat) : Prop where
  rootKey : keys 0 = input.rootPubkey
  rootKeyHash : libs.sha384 (keys 0) = expectedRootPubkeyHash
  rootSubject : subjects 0 = input.rootSubject
  rootSubjectHash : libs.sha384 (subjects 0) = expectedRootSubjectHash
  certificates : 1 ≤ input.chain.length
  links : ∀ i cert, input.chain[i]? = some cert →
    Links libs cert (subjects i) (keys i) (subjects (i + 1)) (keys (i + 1))
  signed : input.coseSignature.length = 96 ∧ Verifies libs (keys input.chain.length)
    (buildSigStructure input.coseProtected input.cosePayload)
    (libs.signatureFromBytes input.coseSignature)
  /-- What is signed is the protected header and the payload, as one CBOR item. -/
  sigStructure : input.coseProtected.length < 2 ^ 64 → input.cosePayload.length < 2 ^ 64 →
    Cbor.Encodes (sigStructure input.coseProtected input.cosePayload)
      (buildSigStructure input.coseProtected input.cosePayload)
  document : ∃ taken trailing, input.cosePayload = taken ++ trailing ∧
    DocBytes (expectedPcr0 network, userData, timestampMs) taken
  /-- There is no other way to read the payload as a document. -/
  only : input.cosePayload.length < 2 ^ 64 → ∀ doc taken trailing,
    input.cosePayload = taken ++ trailing → DocBytes doc taken →
    doc = (expectedPcr0 network, userData, timestampMs)
  key : userData.length = 65 ∧ userData[0]? = some 0x04
  address : addr = List.replicate 12 0 ++ (libs.keccak256 (userData.drop 1)).bytes.drop 12
  time : 0 < timestampMs ∧ ts = timestampMs / 1000

variable {libs} {network : Network} {input : GuestInput}

theorem verifyP384Der_ok {key data sigBytes : Bytes}
    (h : verifyP384Der libs key data sigBytes = .ok ()) :
    Verifies libs key data (libs.signatureFromDer sigBytes) := by
  unfold verifyP384Der at h
  split at h
  · cases h
  · next vk hvk =>
      split at h
      · cases h
      · next s hs =>
          split at h
          · next hverify => exact ⟨vk, s, hvk, hs, hverify⟩
          · cases h

theorem verifyP384Raw_ok {key data sigBytes : Bytes}
    (h : verifyP384Raw libs key data sigBytes = .ok ()) :
    sigBytes.length = 96 ∧ Verifies libs key data (libs.signatureFromBytes sigBytes) := by
  unfold verifyP384Raw at h
  split at h
  · cases h
  · next vk hvk =>
      split at h
      · cases h
      · next hlength =>
          split at h
          · cases h
          · next s hs =>
              split at h
              · next hverify => exact ⟨not_not.mp hlength, vk, s, hvk, hs, hverify⟩
              · cases h

/-- One round: the certificate is a link, and the next round starts from what it binds. -/
theorem checkCert_ok {key key' subject : Bytes} {cert : CertData} {i : Nat}
    (hcert : input.chain[i]? = some cert) (hsubject : prevSubject input i = .ok subject)
    (h : checkCert libs input key (cert, i) = .ok key') :
    ∃ subject', prevSubject input (i + 1) = .ok subject' ∧
      Links libs cert subject key subject' key' := by
  obtain ⟨parsed, hparsed, h⟩ := bind_eq_ok.mp h
  obtain ⟨subject', hprev, h⟩ := bind_eq_ok.mp h
  rw [hsubject] at hprev
  cases hprev
  split at h
  · cases h
  · next hissuer =>
      obtain ⟨⟨⟩, hsig, hpure⟩ := bind_eq_ok.mp h
      cases hpure
      refine ⟨parsed.subject, ?_, ?_, verifyP384Der_ok hsig⟩
      · simp only [prevSubject, hcert, hparsed]
        rfl
      · obtain rfl : parsed.issuer = subject := not_not.mp hissuer
        exact parseTbs_sound hparsed

/-- The loop from some index on. -/
theorem foldlM_checkCert {rest : List CertData} {n : Nat} {subject key leaf : Bytes}
    (hrest : input.chain.drop n = rest) (hsubject : prevSubject input n = .ok subject)
    (h : (rest.zipIdx n).foldlM (checkCert libs input) key = .ok leaf) :
    ∃ subjects keys : Nat → Bytes, subjects 0 = subject ∧ keys 0 = key ∧
      keys rest.length = leaf ∧ ∀ i cert, rest[i]? = some cert →
        Links libs cert (subjects i) (keys i) (subjects (i + 1)) (keys (i + 1)) := by
  induction rest generalizing n subject key with
  | nil =>
      obtain rfl : key = leaf := Except.ok.inj h
      exact ⟨fun _ => subject, fun _ => key, rfl, rfl, rfl, by simp⟩
  | cons cert rest ih =>
      rw [List.zipIdx_cons, List.foldlM_cons] at h
      obtain ⟨key', hfirst, htail⟩ := bind_eq_ok.mp h
      have hcert : input.chain[n]? = some cert := by
        rw [← List.head?_drop, hrest]
        rfl
      obtain ⟨subject', hsubject', hlink⟩ := checkCert_ok hcert hsubject hfirst
      have hdrop : input.chain.drop (n + 1) = rest := by
        rw [← List.tail_drop, hrest]
        rfl
      obtain ⟨subjects, keys, hs, hk, hleaf, hlinks⟩ := ih hdrop hsubject' htail
      -- the subject and key of this round are put in front of those of the later ones
      refine ⟨fun | 0 => subject | i + 1 => subjects i, fun | 0 => key | i + 1 => keys i, rfl, rfl,
        hleaf, ?_⟩
      intro i cert' hi
      cases i with
      | zero =>
          obtain rfl := Option.some.inj hi
          rw [← hs, ← hk] at hlink
          exact hlink
      | succ i => exact hlinks i cert' hi

theorem attested_ok {doc : Bytes × Bytes × Nat} {addr : Bytes} {ts : Nat}
    (h : attested libs network doc = .ok (addr, ts)) :
    doc.1 = expectedPcr0 network ∧ (doc.2.1.length = 65 ∧ doc.2.1[0]? = some 0x04) ∧
      addr = List.replicate 12 0 ++ (libs.keccak256 (doc.2.1.drop 1)).bytes.drop 12 ∧
      0 < doc.2.2 ∧ ts = doc.2.2 / 1000 := by
  unfold attested at h
  simp only at h
  split_ifs at h with hpcr0 hlength hhead hzero
  cases h
  exact ⟨not_not.mp hpcr0, ⟨not_not.mp hlength, not_not.mp hhead⟩, rfl,
    Nat.pos_of_ne_zero hzero, rfl⟩

theorem exists_attested {addr : Bytes} {ts : Nat} (h : verify libs network input = .ok (addr, ts)) :
    ∃ subjects keys userData timestampMs,
      Attested libs network input addr ts subjects keys userData timestampMs := by
  unfold verify at h
  split_ifs at h with hrootKey hrootSubject hlength hempty
  obtain ⟨leafKey, hchain, h⟩ := bind_eq_ok.mp h
  obtain ⟨⟨⟩, hsig, h⟩ := bind_eq_ok.mp h
  obtain ⟨⟨pcr0, userData, timestampMs⟩, hdoc, h⟩ := bind_eq_ok.mp h
  obtain ⟨hpcr0, hkey, haddr, htime⟩ := attested_ok h
  obtain ⟨subjects, keys, hs, hk, hleaf, hlinks⟩ := foldlM_checkCert List.drop_zero rfl hchain
  obtain rfl : pcr0 = expectedPcr0 network := hpcr0
  exact ⟨subjects, keys, userData, timestampMs,
    { rootKey := hk
      rootKeyHash := by rw [hk]; exact not_not.mp hrootKey
      rootSubject := hs
      rootSubjectHash := by rw [hs]; exact not_not.mp hrootSubject
      certificates := List.length_pos_iff.mpr fun hnil => hempty (by rw [hnil]; rfl)
      links := hlinks
      signed := by rw [hleaf]; exact verifyP384Raw_ok hsig
      sigStructure := encodes_buildSigStructure
      document := parseAttestationDoc_sound hdoc
      only := by
        rintro hlength doc taken trailing hpayload hbytes
        rw [hpayload] at hdoc hlength
        exact Except.ok.inj ((parseAttestationDoc_complete hbytes hlength).symm.trans hdoc)
      key := hkey
      address := haddr
      time := htime }⟩

end Verify

/-! Certificates as values -/

/-- A length in as few bytes as it needs. -/
def derLength (n : Nat) : Bytes :=
  if n < 0x80 then [UInt8.ofNat n]
  else UInt8.ofNat (0x80 + (Rlp.toBigEndian n).length) :: Rlp.toBigEndian n

def derTlv (tag : UInt8) (content : Bytes) : Bytes := tag :: (derLength content.length ++ content)

/-- The signed part of a certificate for a P-384 key: contents of its fields, without tags and
lengths, and whatever follows the key info. -/
structure TbsCertificate where
  version : Option Bytes
  serial : Bytes
  issuer : Bytes
  validity : Bytes
  subject : Bytes
  keyAlgorithm : Bytes
  point : Bytes
  extensions : Bytes
  point_length : point.length = 97
  point_uncompressed : point.head? = some 0x04

namespace TbsCertificate

def versionBytes (t : TbsCertificate) : Bytes := (t.version.map (derTlv 0xa0)).getD []

def keyInfo (t : TbsCertificate) : Bytes :=
  derTlv 0x30 t.keyAlgorithm ++ derTlv 0x03 (0x00 :: t.point)

def body (t : TbsCertificate) : Bytes :=
  t.versionBytes ++ derTlv 0x02 t.serial ++ (derTlv 0x30 ecdsaWithSha384AlgidBody ++
    (derTlv 0x30 t.issuer ++ (derTlv 0x30 t.validity ++ (derTlv 0x30 t.subject ++
      derTlv 0x30 t.keyInfo)))) ++ t.extensions

def encode (t : TbsCertificate) : Bytes := derTlv 0x30 t.body

variable (t : TbsCertificate)

theorem derLength_length_le (n : Nat) (h : n < 2 ^ 32) : (derLength n).length ≤ 5 := by
  unfold derLength
  split
  · simp
  · have hle := Rlp.toBigEndian_length_le n 4 (by omega)
    rw [List.length_cons]
    omega

theorem isTlv_derTlv {tag : UInt8} {content : Bytes} (h : content.length < 2 ^ 32) :
    IsTlv tag content (derTlv tag content) := by
  refine ⟨derLength content.length, ?_, rfl⟩
  unfold derLength
  split
  · next hshort => exact .short hshort
  · next hlong =>
      have hlen := LengthBytes.long (Rlp.toBigEndian_length_pos (n := content.length) (by omega))
        (Rlp.toBigEndian_length_le _ 4 (by omega))
      rwa [Rlp.ofBigEndian_toBigEndian] at hlen

theorem length_lt_derTlv (tag : UInt8) (content : Bytes) :
    content.length < (derTlv tag content).length := by
  rw [derTlv, List.length_cons, List.length_append]
  omega

/-- The encoding of a certificate has the form that the parser takes. -/
theorem isTbs_encode (h : t.body.length < 2 ^ 32) :
    IsTbs ⟨derTlv 0x30 t.issuer, derTlv 0x30 t.subject, t.point⟩ t.encode := by
  have hlengths := h
  simp only [body, List.length_append] at hlengths
  have hpiece : ∀ {tag : UInt8} {content : Bytes}, (derTlv tag content).length < 2 ^ 32 →
      IsTlv tag content (derTlv tag content) :=
    fun hlt => isTlv_derTlv ((length_lt_derTlv ..).trans hlt)
  have hversion : t.versionBytes = [] ∨ ∃ content, IsTlv 0xa0 content t.versionBytes := by
    unfold versionBytes at hlengths ⊢
    cases hv : t.version with
    | none => exact .inl rfl
    | some version =>
        rw [hv] at hlengths
        simp only [Option.map_some, Option.getD_some] at hlengths ⊢
        exact .inr ⟨version, hpiece (by omega)⟩
  have hinfo := length_lt_derTlv 0x30 t.keyInfo
  have hinfoParts : t.keyInfo.length =
      (derTlv 0x30 t.keyAlgorithm).length + (derTlv 0x03 (0x00 :: t.point)).length :=
    List.length_append ..
  have hpoint : IsTlv 0x03 (0x00 :: t.point) (derTlv 0x03 (0x00 :: t.point)) := hpiece (by omega)
  refine ⟨t.body, _, t.extensions, isTlv_derTlv h, rfl, .fields hversion ⟨_, hpiece (by omega)⟩
    (hpiece (by omega)) ⟨_, hpiece (by omega)⟩ ⟨_, hpiece (by omega)⟩ ⟨_, hpiece (by omega)⟩
    (hpiece (by omega)) ⟨t.keyInfo, [], (List.append_nil _).symm, ?_⟩⟩
  exact ⟨t.keyAlgorithm, _, _, rfl, hpiece (by omega), hpoint, t.point_length, t.point_uncompressed⟩

theorem encode_length_lt (h : t.body.length < 2 ^ 32) : t.encode.length < 2 ^ 64 := by
  have hle := derLength_length_le t.body.length h
  rw [encode, derTlv, List.length_cons, List.length_append]
  omega

end TbsCertificate

/-- Whenever the validator returns, there is an unbroken chain from the root key to the
attestation document, and address and time are those of the document. Conversely the parser of
certificates reads every certificate of that form. -/
theorem verify_unbroken :
    (∀ {Key Sig : Type} (libs : Libs Key Sig) (network : Network) (input : GuestInput)
      (addr : Bytes) (ts : Nat), verify libs network input = .ok (addr, ts) →
      ∃ subjects keys userData timestampMs,
        Attested libs network input addr ts subjects keys userData timestampMs) ∧
    ∀ t : TbsCertificate, t.body.length < 2 ^ 32 → parseTbs t.encode =
      .ok ⟨derTlv 0x30 t.issuer, derTlv 0x30 t.subject, t.point⟩ :=
  ⟨fun _ _ _ _ _ h => exists_attested h,
    fun t h => parseTbs_complete (t.isTbs_encode h) (t.encode_length_lt h)⟩

/-- A signature is taken for valid if it repeats the key. -/
def sampleLibs : Libs Bytes Bytes where
  sha384 := fun data =>
    if data.length = 97 then expectedRootPubkeyHash else expectedRootSubjectHash
  keccak256 := tableHash [(List.replicate 64 3,
    .ofNat 0x5d5fc83c148550640fb25fbf164972d9a5eb870d6a8da41033a5f16f3fa1535c)]
  fromSec1Bytes := some
  signatureFromDer := some
  signatureFromBytes := some
  verifyDigest := fun key _ sig => sig = key.drop 1

def sampleCertificate : TbsCertificate where
  version := some [0x02, 0x01, 0x02]
  serial := [1]
  issuer := [1]
  validity := []
  subject := [2]
  keyAlgorithm := []
  point := 0x04 :: List.replicate 96 2
  extensions := []
  point_length := rfl
  point_uncompressed := rfl

def sampleInput : GuestInput where
  rootPubkey := 0x04 :: List.replicate 96 1
  rootSubject := derTlv 0x30 [1]
  chain := [⟨sampleCertificate.encode, List.replicate 96 1⟩]
  coseProtected := []
  cosePayload := [0xa3] ++ ([0x64] ++ pcrsKey) ++ [0xa1, 0x00, 0x58, 0x30] ++
    expectedPcr0 .mainnet ++ ([0x69] ++ userDataKey) ++ [0x58, 0x41, 0x04] ++
    List.replicate 64 3 ++ ([0x69] ++ timestampKey) ++ [0x19, 0x07, 0xd0]
  coseSignature := List.replicate 96 2

theorem verify_unbroken_sample :
    (∃ subjects keys userData timestampMs, Attested sampleLibs .mainnet sampleInput
      (B256.ofNat 0x164972d9a5eb870d6a8da41033a5f16f3fa1535c).bytes 2 subjects keys userData
      timestampMs) ∧
    parseTbs sampleCertificate.encode =
      .ok ⟨derTlv 0x30 [1], derTlv 0x30 [2], 0x04 :: List.replicate 96 2⟩ := by
  obtain ⟨hsound, hconverse⟩ := verify_unbroken
  exact ⟨hsound sampleLibs .mainnet sampleInput _ _ (by decide +kernel),
    hconverse sampleCertificate (by decide +kernel)⟩

end FluentStf.NitroValidator
