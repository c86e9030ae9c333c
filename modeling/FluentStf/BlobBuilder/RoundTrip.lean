import FluentStf.Blob.Blocks
import FluentStf.BlobBuilder.Build

/-! What the guests read from blobs is what the host has written into them. -/
namespace FluentStf.BlobBuilder

open Blob

/-- Host and guests agree on the layout of a blob. -/
theorem elements_eq : FIELD_ELEMENTS_PER_BLOB = FIELDS_PER_BLOB := rfl

theorem capacity_eq : FIELDS_PER_BLOB * 31 = MAX_RAW_BYTES_PER_BLOB := rfl

theorem canonicalize_length {raw : Bytes} (h : raw.length ≤ MAX_RAW_BYTES_PER_BLOB) :
    (canonicalize raw).length = BYTES_PER_BLOB := by
  rw [canonicalize_eq h, Packing.pack_length]
  rfl

/-- A blob gives its raw bytes back, filled up with zeros. -/
theorem decanonicalize_canonicalize {raw : Bytes} (h : raw.length ≤ MAX_RAW_BYTES_PER_BLOB) :
    decanonicalize (canonicalize raw) =
      .ok (raw ++ List.replicate (MAX_RAW_BYTES_PER_BLOB - raw.length) 0x00) := by
  rw [decanonicalize_ok_iff (by rw [canonicalize_length h]; exact blob_elements),
    canonicalize_eq h, elements_eq]
  refine ⟨Packing.marked_pack 0x00 31 FIELDS_PER_BLOB raw, ?_⟩
  rw [Packing.unpack_pack 0x00 31 FIELDS_PER_BLOB raw (capacity_eq ▸ h), capacity_eq]

theorem decanonicalizeAll_canonicalize {chunks : List Bytes}
    (h : ∀ chunk ∈ chunks, chunk.length ≤ MAX_RAW_BYTES_PER_BLOB) :
    decanonicalizeAll (chunks.map canonicalize) = .ok (chunks.flatMap fun chunk =>
      chunk ++ List.replicate (MAX_RAW_BYTES_PER_BLOB - chunk.length) 0x00) := by
  induction chunks with
  | nil => rfl
  | cons chunk chunks ih =>
      simp only [List.map_cons, decanonicalizeAll, decanonicalize_canonicalize (h chunk (by simp)),
        ih fun c hc => h c (.tail _ hc), List.flatMap_cons]

theorem buildSingleBlob_all {chunks : List Bytes}
    (h : ∀ chunk ∈ chunks, chunk.length ≤ MAX_RAW_BYTES_PER_BLOB) :
    chunks.mapM buildSingleBlob = .ok (chunks.map canonicalize) := by
  induction chunks with
  | nil => rfl
  | cons chunk chunks ih =>
      have hsingle : buildSingleBlob chunk = .ok (canonicalize chunk) :=
        if_neg (Nat.not_lt.mpr (h chunk (by simp)))
      rw [List.mapM_cons, hsingle, ih fun c hc => h c (.tail _ hc)]
      rfl

/-- The blobs for a compressed payload. -/
def blobsOf (compressed : Bytes) : List Bytes :=
  (Packing.chunks MAX_RAW_BYTES_PER_BLOB (BLOB_FORMAT_VERSION :: compressed)).map canonicalize

variable {blocks : List FetchedBlock} {compressed : Bytes}

theorem blobsOf_length {blob : Bytes} (h : blob ∈ blobsOf compressed) :
    blob.length = BYTES_PER_BLOB := by
  obtain ⟨chunk, hchunk, rfl⟩ := List.mem_map.mp h
  exact canonicalize_length (Packing.length_le_of_mem_chunks hchunk)

/-- The blob for a compressed payload that has room in it. -/
def singleBlob (compressed : Bytes) : Bytes := canonicalize (BLOB_FORMAT_VERSION :: compressed)

theorem blobsOf_single (h : compressed.length < MAX_RAW_BYTES_PER_BLOB) :
    blobsOf compressed = [singleBlob compressed] := by
  rw [blobsOf, Packing.chunks_single (List.cons_ne_nil _ _) h, List.map_singleton, singleBlob]

/-- The stream of the blobs, as the host cuts it and the guests put it together. -/
theorem decodeBlobPayload_blobsOf {decompress : Bytes → Except String Bytes} {payload : Bytes}
    (hbrotli : ∀ n, decompress (compressed ++ List.replicate n 0x00) = .ok payload) :
    decodeBlobPayload decompress (blobsOf compressed) = .ok payload := by
  have hne : blobsOf compressed ≠ [] := by
    rw [blobsOf, Packing.chunks_of_ne_nil (List.cons_ne_nil _ _)]
    exact List.cons_ne_nil _ _
  obtain ⟨fill, hfill⟩ := Packing.flatMap_chunks (n := MAX_RAW_BYTES_PER_BLOB) 0x00
    (BLOB_FORMAT_VERSION :: compressed)
  rw [decodeBlobPayload, if_neg hne, blobsOf,
    decanonicalizeAll_canonicalize fun _ => Packing.length_le_of_mem_chunks, hfill,
    List.cons_append]
  simp only [hbrotli]
  rfl

/-- The blobs that are built for the blocks, when compression succeeds. -/
theorem buildBlobsFromL2_ok {compress : Bytes → Except String Bytes}
    (h : compress (encodeBatchPayload blocks) = .ok compressed) :
    buildBlobsFromL2 compress blocks = .ok (blobsOf compressed) := by
  simp only [buildBlobsFromL2, h]
  exact buildSingleBlob_all fun _ => Packing.length_le_of_mem_chunks

/-- Every block is written as an entry that the guests accept. -/
theorem exists_entries (h : ∀ block ∈ blocks, IsList block.headerRlp ∧
      (block.headerRlp ++ block.txsList).length < 2 ^ 64) :
    ∃ entries : List Entry, entries.map Entry.header = blocks.map FetchedBlock.headerRlp ∧
      entries.map Entry.rest = blocks.map FetchedBlock.txsList ∧
      entries.flatMap Entry.encode = blocks.flatMap FetchedBlock.encode := by
  induction blocks with
  | nil => exact ⟨[], rfl, rfl, rfl⟩
  | cons block blocks ih =>
      obtain ⟨hlist, hfits⟩ := h block (by simp)
      obtain ⟨entries, hheaders, hrests, hencode⟩ :=
        ih fun b hb => h b (.tail _ hb)
      refine ⟨⟨block.headerRlp, block.txsList, hlist, hfits⟩ :: entries, ?_, ?_, ?_⟩
      · rw [List.map_cons, List.map_cons, hheaders]
      · rw [List.map_cons, List.map_cons, hrests]
      · rw [List.flatMap_cons, List.flatMap_cons, hencode, block.encode_eq, Entry.encode]

/-- The payload of the blocks is an outer list of such entries. -/
theorem encodeBatchPayload_entries (hheaders : ∀ block ∈ blocks, IsList block.headerRlp)
    (hsize : (encodeBatchPayload blocks).length < 2 ^ 64) :
    ∃ entries : List Entry, entries.map Entry.header = blocks.map FetchedBlock.headerRlp ∧
      entries.map Entry.rest = blocks.map FetchedBlock.txsList ∧
      (entries.flatMap Entry.encode).length < 2 ^ 64 ∧
      encodeBatchPayload blocks = payloadOf entries := by
  rw [encodeBatchPayload_eq, List.length_append] at hsize
  have hfits : ∀ block ∈ blocks, (block.headerRlp ++ block.txsList).length < 2 ^ 64 := by
    intro block hblock
    have hsub := List.sublist_flatten_of_mem (List.mem_map_of_mem (f := FetchedBlock.encode) hblock)
    have hle := hsub.length_le
    rw [← List.flatMap_def, block.encode_eq, List.length_append] at hle
    omega
  obtain ⟨entries, hheader, hrest, hencode⟩ :=
    exists_entries fun block hblock => ⟨hheaders block hblock, hfits block hblock⟩
  refine ⟨entries, hheader, hrest, ?_, ?_⟩
  · rw [hencode]
    omega
  · rw [encodeBatchPayload_eq, payloadOf, hencode]

/-- The payload yields the hashes of the headers, whatever the transactions are. -/
theorem yields_encodeBatchPayload (keccak : Bytes → B256)
    (hheaders : ∀ block ∈ blocks, IsList block.headerRlp)
    (hsize : (encodeBatchPayload blocks).length < 2 ^ 64) :
    Pull.Yields (BlockIter.next keccak) (iterBlocks (encodeBatchPayload blocks))
      ((blocks.map fun block => BlockView.mk (keccak block.headerRlp)).map .ok) := by
  obtain ⟨entries, hheader, _, hlt, hpayload⟩ := encodeBatchPayload_entries hheaders hsize
  refine BlockIter.yields_iterBlocks.mpr (.inr ⟨entries, hlt, hpayload, ?_⟩)
  have hviews := congrArg (List.map fun header => BlockView.mk (keccak header)) hheader
  rw [List.map_map, List.map_map] at hviews
  exact hviews.symm

/-- Blobs built from fetched blocks are read back as the payload of these blocks,
and the iterator gives the hash of every header in order, then ends. The payload
is a byte vector, so its length fits in 64 bits. -/
theorem blobs_round_trip (keccak : Bytes → B256) {compress decompress : Bytes → Except String Bytes}
    {blocks : List FetchedBlock} {compressed : Bytes}
    (hheaders : ∀ block ∈ blocks, IsList block.headerRlp)
    (hsize : (encodeBatchPayload blocks).length < 2 ^ 64)
    (hcompress : compress (encodeBatchPayload blocks) = .ok compressed)
    (hbrotli : ∀ n, decompress (compressed ++ List.replicate n 0x00) =
      .ok (encodeBatchPayload blocks)) :
    ∃ blobs, buildBlobsFromL2 compress blocks = .ok blobs ∧
      (∀ blob ∈ blobs, blob.length = BYTES_PER_BLOB) ∧
      decodeBlobPayload decompress blobs = .ok (encodeBatchPayload blocks) ∧
      Pull.Yields (BlockIter.next keccak) (iterBlocks (encodeBatchPayload blocks))
        ((blocks.map fun block => BlockView.mk (keccak block.headerRlp)).map .ok) := by
  refine ⟨blobsOf compressed, buildBlobsFromL2_ok hcompress, ?_, ?_, ?_⟩
  · exact fun blob hblob => blobsOf_length hblob
  · exact decodeBlobPayload_blobsOf hbrotli
  · exact yields_encodeBatchPayload keccak hheaders hsize

/-- Compression that is known on one payload. -/
def knownCompress (payload compressed : Bytes) (data : Bytes) : Except String Bytes :=
  if data = payload then .ok compressed else .error "brotli compress failed"

/-- Decompression that is known on one stream. It reads up to the end of the stream
and leaves what is behind it. -/
def knownDecompress (payload compressed : Bytes) (stream : Bytes) : Except String Bytes :=
  if compressed.isPrefixOf stream then .ok payload else .error "Invalid Data"

theorem knownCompress_self (payload compressed : Bytes) :
    knownCompress payload compressed payload = .ok compressed :=
  if_pos rfl

theorem knownDecompress_append (payload compressed rest : Bytes) :
    knownDecompress payload compressed (compressed ++ rest) = .ok payload := by
  rw [knownDecompress, if_pos]
  simp

/-- Two blocks with headers of one and two empty fields. -/
def tinyBlocks : List FetchedBlock :=
  [⟨[0xc1, 0x80], [[0x01, 0x02], [0x03, 0x04]]⟩, ⟨[0xc2, 0x80, 0x80], [[0x05]]⟩]

/-- Their payload as brotli writes it with quality 6. -/
def tinyCompressed : Bytes :=
  [0x0b, 0x08, 0x80, 0xd0, 0xc9, 0xc1, 0x80, 0xc6, 0x82, 0x01, 0x02,
    0x82, 0x03, 0x04, 0xc5, 0xc2, 0x80, 0x80, 0xc1, 0x05, 0x03]

def tinyDigests : List (Bytes × B256) :=
  [([0xc1, 0x80], .ofNat 0xc5930565f8646edc3dc613eb690a4d2501341795d728fcf8bb10a837afc0da1f),
    ([0xc2, 0x80, 0x80], .ofNat 0x3947d64d838a72a40582ad1ae01c10fd900939d1eab56ee373ea5e2bd4e2cfb3)]

theorem tinyBlocks_lists : ∀ block ∈ tinyBlocks, IsList block.headerRlp := by
  simp only [tinyBlocks, List.forall_mem_cons, List.not_mem_nil, false_implies, implies_true,
    and_true]
  exact ⟨⟨[0x80], by decide, by decide⟩, ⟨[0x80, 0x80], by decide, by decide⟩⟩

theorem tinyBlocks_round_trip :
    ∃ blobs, buildBlobsFromL2 (knownCompress (encodeBatchPayload tinyBlocks) tinyCompressed)
        tinyBlocks = .ok blobs ∧
      (∀ blob ∈ blobs, blob.length = BYTES_PER_BLOB) ∧
      decodeBlobPayload (knownDecompress (encodeBatchPayload tinyBlocks) tinyCompressed) blobs =
        .ok (encodeBatchPayload tinyBlocks) ∧
      Pull.Yields (BlockIter.next (tableHash tinyDigests))
        (iterBlocks (encodeBatchPayload tinyBlocks))
        ((tinyBlocks.map fun block =>
          BlockView.mk (tableHash tinyDigests block.headerRlp)).map .ok) :=
  blobs_round_trip (tableHash tinyDigests) tinyBlocks_lists (by decide +kernel)
    (knownCompress_self _ _) (fun _ => knownDecompress_append _ _ _)

end FluentStf.BlobBuilder
