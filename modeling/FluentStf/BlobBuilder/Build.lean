import FluentStf.Packing
import FluentStf.Primitives
import FluentStf.Rlp.Encoding

/-! The host side of the blobs: fetched blocks are written into one payload, which
is compressed, cut into chunks and spread over the field elements of blobs. -/
namespace FluentStf.BlobBuilder

/-- EIP-4844 blob size: 4096 field elements of 32 bytes. -/
def BYTES_PER_BLOB : Nat := 131072

def BYTES_PER_FIELD_ELEMENT : Nat := 31

def FIELD_ELEMENTS_PER_BLOB : Nat := BYTES_PER_BLOB / 32

def MAX_RAW_BYTES_PER_BLOB : Nat := FIELD_ELEMENTS_PER_BLOB * BYTES_PER_FIELD_ELEMENT

/-- Blob format version byte, outside the compressed part. -/
def BLOB_FORMAT_VERSION : UInt8 := 0x01

/-- A header, already encoded, and the transaction envelopes. -/
structure FetchedBlock where
  headerRlp : Bytes
  txEnvelopes : List Bytes
deriving DecidableEq

namespace FetchedBlock

variable (block : FetchedBlock)

def txsPayloadLen : Nat := (block.txEnvelopes.map fun tx => (Rlp.encodeBytes tx).length).sum

def txsListLen : Nat :=
  (Rlp.Header.encode ⟨true, block.txsPayloadLen⟩).length + block.txsPayloadLen

def blockPayloadLen : Nat := block.headerRlp.length + block.txsListLen

def blockTotalLen : Nat :=
  (Rlp.Header.encode ⟨true, block.blockPayloadLen⟩).length + block.blockPayloadLen

/-- What the second loop writes for one block. -/
def encode : Bytes :=
  Rlp.Header.encode ⟨true, block.blockPayloadLen⟩ ++ block.headerRlp ++
    Rlp.Header.encode ⟨true, block.txsPayloadLen⟩ ++ block.txEnvelopes.flatMap Rlp.encodeBytes

end FetchedBlock

/-- All lengths are computed before anything is written. -/
def encodeBatchPayload (blocks : List FetchedBlock) : Bytes :=
  let outerPayloadLen := (blocks.map FetchedBlock.blockTotalLen).sum
  Rlp.Header.encode ⟨true, outerPayloadLen⟩ ++ blocks.flatMap FetchedBlock.encode

example : encodeBatchPayload [⟨[0xc1, 0x80], [[0x01, 0x02], [0x03, 0x04]]⟩,
    ⟨[0xc2, 0x80, 0x80], [[0x05]]⟩] =
      [0xd0, 0xc9, 0xc1, 0x80, 0xc6, 0x82, 0x01, 0x02, 0x82, 0x03, 0x04,
        0xc5, 0xc2, 0x80, 0x80, 0xc1, 0x05] := by
  decide +kernel

inductive BuildError where
  | brotli (reason : String)
  | exceedsCapacity (length : Nat)
deriving DecidableEq

def BuildError.message : BuildError → String
  | .brotli reason => reason
  | .exceedsCapacity length => "data (" ++ toString length ++ " bytes) exceeds blob capacity (" ++
      toString MAX_RAW_BYTES_PER_BLOB ++ ")"

/-- Overwrite part of a buffer. -/
def copyAt (out : Bytes) (offset : Nat) (slice : Bytes) : Bytes :=
  out.take offset ++ slice ++ out.drop (offset + slice.length)

/-- The loop over the field elements of a blob. -/
def canonicalizeLoop (raw : Bytes) (srcOff dstOff : Nat) (out : Bytes) : Bytes :=
  if srcOff < raw.length then
    let take := min BYTES_PER_FIELD_ELEMENT (raw.length - srcOff)
    canonicalizeLoop raw (srcOff + take) (dstOff + 1 + BYTES_PER_FIELD_ELEMENT)
      (copyAt out (dstOff + 1) ((raw.drop srcOff).take take))
  else out
termination_by raw.length - srcOff
decreasing_by
  simp only [BYTES_PER_FIELD_ELEMENT]
  omega

/-- Raw bytes behind the zero high bytes of a zeroed blob. -/
def canonicalize (raw : Bytes) : Bytes :=
  canonicalizeLoop raw 0 0 (List.replicate BYTES_PER_BLOB 0x00)

def buildSingleBlob (raw : Bytes) : Except BuildError Bytes :=
  if MAX_RAW_BYTES_PER_BLOB < raw.length then .error (.exceedsCapacity raw.length)
  else .ok (canonicalize raw)

instance : NeZero MAX_RAW_BYTES_PER_BLOB := ⟨by decide⟩

/-- Blobs for the fetched blocks. Compression is that of the brotli library. -/
def buildBlobsFromL2 (compress : Bytes → Except String Bytes) (blocks : List FetchedBlock) :
    Except BuildError (List Bytes) :=
  match compress (encodeBatchPayload blocks) with
  | .error reason => .error (.brotli reason)
  | .ok compressed =>
      (Packing.chunks MAX_RAW_BYTES_PER_BLOB (BLOB_FORMAT_VERSION :: compressed)).mapM
        buildSingleBlob

section Lengths

variable (block : FetchedBlock)

/-- The list of transactions behind the header of a block. -/
def FetchedBlock.txsList : Bytes := Rlp.encodeList (block.txEnvelopes.map Rlp.encodeBytes)

theorem FetchedBlock.txsPayloadLen_eq :
    block.txsPayloadLen = (block.txEnvelopes.map Rlp.encodeBytes).flatten.length := by
  rw [txsPayloadLen, List.length_flatten, List.map_map]
  rfl

theorem FetchedBlock.blockPayloadLen_eq :
    block.blockPayloadLen = (block.headerRlp ++ block.txsList).length := by
  rw [blockPayloadLen, txsListLen, txsPayloadLen_eq, List.length_append, txsList, Rlp.encodeList,
    List.length_append]

/-- The lengths that are written are those of what follows them. -/
theorem FetchedBlock.encode_eq : block.encode =
    Rlp.Header.encode ⟨true, (block.headerRlp ++ block.txsList).length⟩ ++
      (block.headerRlp ++ block.txsList) := by
  rw [encode, blockPayloadLen_eq, txsPayloadLen_eq, List.flatMap_def, txsList, Rlp.encodeList]
  simp only [List.append_assoc]

theorem FetchedBlock.blockTotalLen_eq : block.blockTotalLen = block.encode.length := by
  rw [blockTotalLen, encode_eq, List.length_append, blockPayloadLen_eq]

theorem encodeBatchPayload_eq (blocks : List FetchedBlock) : encodeBatchPayload blocks =
    Rlp.Header.encode ⟨true, (blocks.flatMap FetchedBlock.encode).length⟩ ++
      blocks.flatMap FetchedBlock.encode := by
  rw [encodeBatchPayload, List.length_flatMap,
    List.map_congr_left fun block _ => block.blockTotalLen_eq]

end Lengths

section Canonicalize

open Packing

/-- Writing behind the high byte of the next element of a zeroed buffer. -/
theorem copyAt_element (front slice : Bytes) (n : Nat) (h : slice.length ≤ 31) :
    copyAt (front ++ List.replicate (32 * (n + 1)) 0x00) (front.length + 1) slice =
      (front ++ (0x00 :: (slice ++ List.replicate (31 - slice.length) 0x00))) ++
        List.replicate (32 * n) 0x00 := by
  have htotal : 32 * (n + 1) = 1 + (slice.length + ((31 - slice.length) + 32 * n)) := by omega
  rw [htotal, List.replicate_add, List.replicate_add, List.replicate_add, List.replicate_one]
  simp only [copyAt, List.singleton_append]
  have hafter : front.length + 1 + slice.length =
      (front ++ 0x00 :: List.replicate slice.length (0x00 : UInt8)).length := by
    simp only [List.length_append, List.length_cons, List.length_replicate]
    omega
  rw [List.take_length_add_append, List.take_succ_cons, List.take_zero, hafter,
    ← List.cons_append, ← List.append_assoc front, List.drop_left]
  simp only [List.append_assoc, List.cons_append, List.nil_append]

/-- With room for all that is left, the loop packs it into the remaining elements. -/
theorem canonicalizeLoop_eq (raw front : Bytes) (n srcOff : Nat)
    (hroom : (raw.drop srcOff).length ≤ 31 * n) :
    canonicalizeLoop raw srcOff front.length (front ++ List.replicate (32 * n) 0x00) =
      front ++ pack 0x00 31 n (raw.drop srcOff) := by
  induction n generalizing front srcOff with
  | zero =>
      rw [List.length_drop] at hroom
      rw [canonicalizeLoop, if_neg (by omega)]
      rfl
  | succ n ih =>
      rw [canonicalizeLoop]
      split_ifs with hmore
      · have hlength : (raw.drop srcOff).length = raw.length - srcOff := List.length_drop
        have htake : (raw.drop srcOff).take (min 31 (raw.length - srcOff)) =
            (raw.drop srcOff).take 31 := by
          rw [← hlength, ← List.take_eq_take_min]
        have hdrop : raw.drop (srcOff + min 31 (raw.length - srcOff)) =
            (raw.drop srcOff).drop 31 := by
          rw [List.drop_drop]
          by_cases hlast : raw.length - srcOff ≤ 31
          · rw [List.drop_of_length_le (by omega), List.drop_of_length_le (by omega)]
          · rw [Nat.min_eq_left (by omega)]
        have hfill : 31 - ((raw.drop srcOff).take 31).length = 31 - (raw.drop srcOff).length := by
          rw [List.length_take]
          omega
        have hfront : front.length + 1 + 31 = (front ++ (0x00 :: ((raw.drop srcOff).take 31 ++
            List.replicate (31 - (raw.drop srcOff).length) 0x00))).length := by
          rw [List.length_append, List.length_cons, element_length]
        simp only [BYTES_PER_FIELD_ELEMENT, htake]
        rw [copyAt_element _ _ _ (List.length_take_le 31 _), hfill, hfront,
          ih _ _ (by rw [hdrop, List.length_drop]; omega), hdrop, pack, List.append_assoc]
      · rw [List.drop_of_length_le (by omega), pack_nil, Nat.mul_comm]

theorem blob_elements : BYTES_PER_BLOB = 32 * FIELD_ELEMENTS_PER_BLOB := rfl

theorem canonicalize_eq {raw : Bytes} (h : raw.length ≤ MAX_RAW_BYTES_PER_BLOB) :
    canonicalize raw = pack 0x00 31 FIELD_ELEMENTS_PER_BLOB raw := by
  have hroom : (raw.drop 0).length ≤ 31 * FIELD_ELEMENTS_PER_BLOB := by
    rw [List.drop_zero, Nat.mul_comm]
    exact h
  have hloop := canonicalizeLoop_eq raw [] FIELD_ELEMENTS_PER_BLOB 0 hroom
  rw [List.drop_zero, List.nil_append, List.nil_append, List.length_nil, ← blob_elements] at hloop
  exact hloop

end Canonicalize

end FluentStf.BlobBuilder
