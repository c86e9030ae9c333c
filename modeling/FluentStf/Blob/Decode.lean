import FluentStf.Packing
import FluentStf.Primitives
import FluentStf.Rlp.Decoding

/-! From blobs to the payload they carry, as both guests read it: the bytes behind
the high bytes of the field elements, without the version byte, decompressed. -/
namespace FluentStf.Blob

def BYTES_PER_FIELD : Nat := 31

def FIELDS_PER_BLOB : Nat := 4096

def MAX_RAW_BYTES_PER_BLOB : Nat := FIELDS_PER_BLOB * BYTES_PER_FIELD

/-- Blob format version byte, in clear in front of the raw stream. -/
def BLOB_FORMAT_VERSION : UInt8 := 0x01

/-- Everything that reading blobs can report. -/
inductive BlobError where
  | notMultiple (length : Nat)
  | nonCanonical (offset : Nat)
  | noBlobs
  | emptyStream
  | unsupportedVersion (found : UInt8)
  | brotli (reason : String)
  | outerDecode (reason : Rlp.DecodeError)
  | outerNotList
  | outerExceeds
  | outerTrailing
  | blockDecode (reason : Rlp.DecodeError)
  | blockNotList
  | blockExceeds
  | headerDecode (reason : Rlp.DecodeError)
  | headerNotList
  | headerExceeds
deriving DecidableEq

/-- One byte as two hexadecimal digits. -/
def hexByte (byte : UInt8) : String :=
  String.ofList [(Nat.digitChar (byte.toNat / 16)), (Nat.digitChar (byte.toNat % 16))]

/-- The text of an error. Reasons of the RLP library are shown as it displays them. -/
def BlobError.message (display : Rlp.DecodeError → String) : BlobError → String
  | .notMultiple length => "blob length (" ++ toString length ++ ") is not a multiple of 32"
  | .nonCanonical offset => "non-canonical field element at offset " ++ toString offset
  | .noBlobs => "no blobs provided"
  | .emptyStream => "empty raw stream after decanonicalization"
  | .unsupportedVersion found => "unsupported blob format version: 0x" ++ hexByte found ++
      ", expected 0x" ++ hexByte BLOB_FORMAT_VERSION
  | .brotli reason => "brotli decompression failed: " ++ reason
  | .outerDecode reason => "outer list RLP decode failed: " ++ display reason
  | .outerNotList => "payload is not an RLP list"
  | .outerExceeds => "outer list exceeds payload bounds"
  | .outerTrailing => "trailing bytes after outer RLP list"
  | .blockDecode reason => "block list RLP decode failed: " ++ display reason
  | .blockNotList => "block entry is not an RLP list"
  | .blockExceeds => "block entry exceeds remaining payload"
  | .headerDecode reason => "header RLP decode failed: " ++ display reason
  | .headerNotList => "header is not an RLP list"
  | .headerExceeds => "header RLP exceeds block bounds"

/-- The loop over the field elements of a blob. -/
def decanonicalizeLoop (blob : Bytes) (offset : Nat) (result : Bytes) : Except BlobError Bytes :=
  if h : offset < blob.length ∧ result.length < MAX_RAW_BYTES_PER_BLOB then
    if blob.get ⟨offset, h.1⟩ ≠ 0x00 then .error (.nonCanonical offset)
    else
      let remaining := MAX_RAW_BYTES_PER_BLOB - result.length
      let take := min (min remaining BYTES_PER_FIELD) (blob.length - (offset + 1))
      decanonicalizeLoop blob (offset + 1 + BYTES_PER_FIELD)
        (result ++ (blob.drop (offset + 1)).take take)
  else .ok result
termination_by blob.length - offset

/-- The raw bytes of a single blob. -/
def decanonicalize (blob : Bytes) : Except BlobError Bytes :=
  if blob.length % 32 ≠ 0 then .error (.notMultiple blob.length)
  else decanonicalizeLoop blob 0 []

/-- The raw bytes of all blobs, one after the other. -/
def decanonicalizeAll : List Bytes → Except BlobError Bytes
  | [] => .ok []
  | blob :: blobs => match decanonicalize blob with
    | .error e => .error e
    | .ok raw => match decanonicalizeAll blobs with
      | .error e => .error e
      | .ok rest => .ok (raw ++ rest)

/-- The payload of the blobs. Decompression is that of the brotli library. -/
def decodeBlobPayload (decompress : Bytes → Except String Bytes) (blobs : List Bytes) :
    Except BlobError Bytes :=
  if blobs = [] then .error .noBlobs
  else match decanonicalizeAll blobs with
    | .error e => .error e
    | .ok [] => .error .emptyStream
    | .ok (version :: stream) =>
        if version ≠ BLOB_FORMAT_VERSION then .error (.unsupportedVersion version)
        else match decompress stream with
          | .error reason => .error (.brotli reason)
          | .ok payload => .ok payload

open Packing

/-- The loop accepts exactly the field elements whose high bytes are zero, and
collects what is behind these. -/
theorem decanonicalizeLoop_ok_iff {blob result raw : Bytes} {count offset : Nat}
    (hblob : blob.length = offset + 32 * count)
    (hresult : result.length + 31 * count = MAX_RAW_BYTES_PER_BLOB) :
    decanonicalizeLoop blob offset result = .ok raw ↔
      Marked 0x00 31 count (blob.drop offset) ∧
        raw = result ++ unpack 31 count (blob.drop offset) := by
  induction count generalizing offset result with
  | zero =>
      rw [decanonicalizeLoop, dif_neg (by omega), Except.ok.injEq]
      simp [Marked, unpack, eq_comm]
  | succ count ih =>
      have hin : offset < blob.length ∧ result.length < MAX_RAW_BYTES_PER_BLOB := by omega
      have htake : min (min (MAX_RAW_BYTES_PER_BLOB - result.length) BYTES_PER_FIELD)
          (blob.length - (offset + 1)) = 31 := by
        simp only [BYTES_PER_FIELD]
        omega
      have hhead : (blob.drop offset).head? = some (blob.get ⟨offset, hin.1⟩) := by
        rw [List.head?_drop, List.getElem?_eq_getElem hin.1]
        rfl
      rw [decanonicalizeLoop, dif_pos hin, Marked, unpack, hhead, Option.some.injEq,
        List.drop_drop, List.drop_drop]
      by_cases hzero : blob.get ⟨offset, hin.1⟩ = 0x00
      · simp only [hzero, ne_eq, not_true, if_false, htake]
        rw [ih]
        · simp [BYTES_PER_FIELD, Nat.add_assoc]
        · simp only [BYTES_PER_FIELD]
          omega
        · rw [List.length_append, List.length_take, List.length_drop]
          omega
      · rw [if_pos hzero]
        simp only [reduceCtorEq, hzero, false_and]

/-- A blob of full size. -/
theorem decanonicalize_ok_iff {blob raw : Bytes} (hblob : blob.length = 32 * FIELDS_PER_BLOB) :
    decanonicalize blob = .ok raw ↔
      Marked 0x00 31 FIELDS_PER_BLOB blob ∧ raw = unpack 31 FIELDS_PER_BLOB blob := by
  have hmod : ¬blob.length % 32 ≠ 0 := by
    rw [hblob, Nat.mul_mod_right]
    exact fun h => h rfl
  have hraw : ([] : Bytes).length + 31 * FIELDS_PER_BLOB = MAX_RAW_BYTES_PER_BLOB := by
    rw [List.length_nil, Nat.zero_add, Nat.mul_comm]
    rfl
  rw [decanonicalize, if_neg hmod, decanonicalizeLoop_ok_iff (by rw [hblob, Nat.zero_add]) hraw,
    List.drop_zero, List.nil_append]

/-- Each blob of a decoded list can be read on its own. -/
theorem decanonicalize_of_decanonicalizeAll {blobs : List Bytes} {raw blob : Bytes}
    (h : decanonicalizeAll blobs = .ok raw) (hblob : blob ∈ blobs) :
    ∃ part, decanonicalize blob = .ok part := by
  induction blobs generalizing raw with
  | nil => cases hblob
  | cons first blobs ih =>
      rw [decanonicalizeAll] at h
      split at h
      · cases h
      · next part hpart =>
          split at h
          · cases h
          · next rest hrest =>
              rcases List.mem_cons.mp hblob with rfl | hblob
              · exact ⟨part, hpart⟩
              · exact ih hrest hblob

theorem decanonicalize_of_decodeBlobPayload {decompress : Bytes → Except String Bytes}
    {blobs : List Bytes} {payload blob : Bytes}
    (h : decodeBlobPayload decompress blobs = .ok payload)
    (hblob : blob ∈ blobs) : ∃ part, decanonicalize blob = .ok part := by
  rcases hall : decanonicalizeAll blobs with e | raw
  · rw [decodeBlobPayload, hall] at h
    split_ifs at h
  · exact decanonicalize_of_decanonicalizeAll hall hblob

end FluentStf.Blob
