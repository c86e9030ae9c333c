import FluentStf.Blob.Blocks

/-! How the enclave checks blobs against the hashes of executed blocks, and the
versioned hashes it derives from the blobs. -/
namespace FluentStf.Nitro

open Blob

/-- Functions of other libraries that are applied to blobs. -/
structure BlobLibs where
  keccak256 : Bytes → B256
  sha256 : Bytes → B256
  decompress : Bytes → Except String Bytes
  blobToKzgCommitment : Bytes → Except String Bytes

/-- The blob size of the KZG library. -/
def BYTES_PER_BLOB : Nat := 131072

/-- Why blobs are not accepted for the headers of a batch. -/
inductive VerifyError where
  | decode (reason : BlobError)
  | truncated (index : Nat)
  | decodeAt (index : Nat) (reason : BlobError)
  | hashMismatch (index : Nat) (found expected : B256)
  | trailingBlocks
  | blobSize (index : Nat)
  | commitment (reason : String)
deriving DecidableEq

/-- A word as it is displayed. -/
def hexWord (word : B256) : String := "0x" ++ String.join (word.bytes.map hexByte)

def VerifyError.message (display : Rlp.DecodeError → String) : VerifyError → String
  | .decode reason => reason.message display
  | .truncated index => "blob truncated: missing block at index " ++ toString index
  | .decodeAt index reason =>
      "blob decode at index " ++ toString index ++ ": " ++ reason.message display
  | .hashMismatch index found expected => "block_hash mismatch at index " ++ toString index ++
      ": blob=" ++ hexWord found ++ ", expected=" ++ hexWord expected
  | .trailingBlocks => "blob has trailing blocks beyond the trusted list"
  | .blobSize index => "blob " ++ toString index ++ " must be exactly " ++
      toString BYTES_PER_BLOB ++ " bytes"
  | .commitment reason => "KZG commitment failed: " ++ reason

/-- EIP-4844 version byte in place of the first byte of a digest. -/
def versioned (hash : B256) : B256 :=
  ⟨0x01 :: hash.bytes.drop 1, by rw [List.length_cons, List.length_drop, hash.length_eq]⟩

variable (lib : BlobLibs)

def blobToVersionedHash (blob : Bytes) : Except VerifyError B256 :=
  match lib.blobToKzgCommitment blob with
  | .error reason => .error (.commitment reason)
  | .ok commitment => .ok (versioned (lib.sha256 commitment))

/-- The loop of `compute_versioned_hashes`, from the given index on. -/
def versionedHashesFrom : Nat → List Bytes → Except VerifyError (List B256)
  | _, [] => .ok []
  | index, blob :: blobs =>
      if blob.length ≠ BYTES_PER_BLOB then .error (.blobSize index)
      else match blobToVersionedHash lib blob with
        | .error e => .error e
        | .ok hash => match versionedHashesFrom (index + 1) blobs with
          | .error e => .error e
          | .ok hashes => .ok (hash :: hashes)

def computeVersionedHashes (blobs : List Bytes) : Except VerifyError (List B256) :=
  versionedHashesFrom lib 0 blobs

/-- The loop over the trusted hashes, in lockstep with the blocks of the payload. -/
def checkHashes : Nat → BlockIter → List B256 → Except VerifyError BlockIter
  | _, it, [] => .ok it
  | index, it, expected :: rest => match it.next lib.keccak256 with
    | (none, _) => .error (.truncated index)
    | (some (.error e), _) => .error (.decodeAt index e)
    | (some (.ok view), it') =>
        if view.blockHash ≠ expected then .error (.hashMismatch index view.blockHash expected)
        else checkHashes (index + 1) it' rest

/-- Check all blobs against the trusted hashes and give their versioned hashes. -/
def verifyBlobs (blobs : List Bytes) (blockHashes : List B256) : Except VerifyError (List B256) :=
  match decodeBlobPayload lib.decompress blobs with
  | .error e => .error (.decode e)
  | .ok payload => match checkHashes lib 0 (iterBlocks payload) blockHashes with
    | .error e => .error e
    | .ok it => match it.next lib.keccak256 with
      | (some _, _) => .error .trailingBlocks
      | (none, _) => computeVersionedHashes lib blobs

variable {lib}

/-- The loop ends well and nothing follows exactly if the iterator yields these hashes. -/
theorem checkHashes_ok_iff (index : Nat) (it : BlockIter) {hashes : List B256} :
    (∃ it' it'', checkHashes lib index it hashes = .ok it' ∧
      it'.next lib.keccak256 = (none, it'')) ↔
      Pull.Yields (BlockIter.next lib.keccak256) it ((hashes.map BlockView.mk).map .ok) := by
  induction hashes generalizing index it with
  | nil =>
      rw [List.map_nil, List.map_nil, Pull.yields_nil_iff]
      simp [checkHashes]
  | cons expected rest ih =>
      rw [List.map_cons, List.map_cons, Pull.yields_cons_iff]
      simp only [checkHashes]
      rcases it.next lib.keccak256 with ⟨_ | e | view, it'⟩
      · simp
      · simp
      · by_cases hview : view.blockHash = expected
        · subst hview
          simpa using ih (index + 1) it'
        · have hne : view ≠ ⟨expected⟩ := fun h => hview (congrArg BlockView.blockHash h)
          simp [hview, hne]

/-- What it takes for blobs to be accepted. -/
theorem verifyBlobs_ok_iff {blobs : List Bytes} {hashes versionedHashes : List B256} :
    verifyBlobs lib blobs hashes = .ok versionedHashes ↔
      ∃ payload, decodeBlobPayload lib.decompress blobs = .ok payload ∧
        Pull.Yields (BlockIter.next lib.keccak256) (iterBlocks payload)
          ((hashes.map BlockView.mk).map .ok) ∧
        computeVersionedHashes lib blobs = .ok versionedHashes := by
  constructor
  · intro h
    unfold verifyBlobs at h
    split at h
    · cases h
    · next payload hdecode =>
        split at h
        · cases h
        · next it hcheck =>
            split at h
            · cases h
            · next it' hnext =>
                exact ⟨payload, hdecode, (checkHashes_ok_iff 0 _).mp ⟨it, it', hcheck, hnext⟩, h⟩
  · rintro ⟨payload, hdecode, hyields, hversioned⟩
    obtain ⟨it, it', hcheck, hnext⟩ := (checkHashes_ok_iff 0 _).mpr hyields
    simp only [verifyBlobs, hdecode, hcheck, hnext, hversioned]

section Commitments

/-- The order of the scalar field of BLS12-381. -/
def BLS_MODULUS : Nat := 0x73eda753299d7d483339d80809a1d80553bda402fffe5bfeffffffff00000001

def fieldElement (blob : Bytes) (i : Nat) : Nat := Rlp.ofBigEndian ((blob.drop (i * 32)).take 32)

/-- The blobs that have a KZG commitment. -/
structure CanonicalBlob (blob : Bytes) : Prop where
  length_eq : blob.length = BYTES_PER_BLOB
  below : ∀ i < FIELDS_PER_BLOB, fieldElement blob i < BLS_MODULUS

/-- With a zero high byte a field element is below the modulus. -/
theorem fieldElement_lt {blob : Bytes} {i : Nat} (h : (blob.drop (i * 32)).head? = some 0x00) :
    fieldElement blob i < BLS_MODULUS := by
  obtain ⟨rest, hrest⟩ := List.head?_eq_some_iff.mp h
  rw [fieldElement, hrest, List.take_succ_cons, Rlp.ofBigEndian_zero_cons]
  have hlt := Rlp.ofBigEndian_lt (rest.take 31)
  have hle : 256 ^ (rest.take 31).length ≤ 256 ^ 31 :=
    Nat.pow_le_pow_right (by omega) (List.length_take_le 31 rest)
  have hmodulus : 256 ^ 31 ≤ BLS_MODULUS := by decide
  omega

/-- Blobs of full size that can be read have a commitment. -/
theorem canonicalBlob_of_decanonicalize {blob raw : Bytes} (hlength : blob.length = BYTES_PER_BLOB)
    (h : decanonicalize blob = .ok raw) : CanonicalBlob blob := by
  have hmarked := ((decanonicalize_ok_iff hlength).mp h).1
  exact ⟨hlength, fun i hi => fieldElement_lt (hmarked.head?_drop hi)⟩

theorem versionedHashesFrom_ok {blobs : List Bytes}
    (hcanonical : ∀ blob ∈ blobs, CanonicalBlob blob)
    (hkzg : ∀ blob ∈ blobs, CanonicalBlob blob →
      ∃ commitment, lib.blobToKzgCommitment blob = .ok commitment) (index : Nat) :
    ∃ hashes, versionedHashesFrom lib index blobs = .ok hashes := by
  induction blobs generalizing index with
  | nil => exact ⟨[], rfl⟩
  | cons blob blobs ih =>
      have hblob := hcanonical blob (by simp)
      obtain ⟨commitment, hcommitment⟩ := hkzg blob (by simp) hblob
      obtain ⟨hashes, hhashes⟩ := ih (fun b hb => hcanonical b (.tail _ hb))
        (fun b hb => hkzg b (.tail _ hb)) (index + 1)
      refine ⟨versioned (lib.sha256 commitment) :: hashes, ?_⟩
      simp only [versionedHashesFrom, hblob.length_eq, ne_eq, not_true, if_false,
        blobToVersionedHash, hcommitment, hhashes]

/-- For blobs of full size nothing can fail any more once the payload is decoded. -/
theorem computeVersionedHashes_ok {blobs : List Bytes} {payload : Bytes}
    (hfull : ∀ blob ∈ blobs, blob.length = BYTES_PER_BLOB)
    (hkzg : ∀ blob ∈ blobs, CanonicalBlob blob →
      ∃ commitment, lib.blobToKzgCommitment blob = .ok commitment)
    (hdecode : decodeBlobPayload lib.decompress blobs = .ok payload) :
    ∃ hashes, computeVersionedHashes lib blobs = .ok hashes := by
  refine versionedHashesFrom_ok (fun blob hblob => ?_) hkzg 0
  obtain ⟨raw, hraw⟩ := decanonicalize_of_decodeBlobPayload hdecode hblob
  exact canonicalBlob_of_decanonicalize (hfull blob hblob) hraw

end Commitments

end FluentStf.Nitro
