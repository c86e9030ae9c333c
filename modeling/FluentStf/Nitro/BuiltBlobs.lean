import FluentStf.BlobBuilder.RoundTrip
import FluentStf.Nitro.VerifyBlobs

/-! The enclave accepts the blobs that the host builds, for the hashes of the
headers that are in them. -/
namespace FluentStf.Nitro

open Blob BlobBuilder

/-- Transactions are not looked at. -/
theorem verifyBlobs_built {lib : BlobLibs} {blocks : List FetchedBlock} {compressed : Bytes}
    (hheaders : ∀ block ∈ blocks, IsList block.headerRlp)
    (hsize : (encodeBatchPayload blocks).length < 2 ^ 64)
    (hbrotli : ∀ n, lib.decompress (compressed ++ List.replicate n 0x00) =
      .ok (encodeBatchPayload blocks))
    (hkzg : ∀ blob ∈ blobsOf compressed, CanonicalBlob blob →
      ∃ commitment, lib.blobToKzgCommitment blob = .ok commitment) :
    ∃ versionedHashes, computeVersionedHashes lib (blobsOf compressed) = .ok versionedHashes ∧
      verifyBlobs lib (blobsOf compressed)
        (blocks.map fun block => lib.keccak256 block.headerRlp) = .ok versionedHashes := by
  have hdecode := decodeBlobPayload_blobsOf hbrotli
  obtain ⟨versionedHashes, hversioned⟩ :=
    computeVersionedHashes_ok (fun _ hblob => blobsOf_length hblob) hkzg hdecode
  refine ⟨versionedHashes, hversioned, verifyBlobs_ok_iff.mpr ⟨_, hdecode, ?_, hversioned⟩⟩
  have hyields := yields_encodeBatchPayload lib.keccak256 hheaders hsize
  rwa [List.map_map (f := fun block : FetchedBlock => lib.keccak256 block.headerRlp)]

section OneBlob

/-- Libraries that are known on one compressed payload and the blob for it. -/
def knownLibs (headers : List (Bytes × B256)) (payload compressed commitment : Bytes)
    (digest : B256) : BlobLibs where
  keccak256 := tableHash headers
  sha256 := tableHash [(commitment, digest)]
  decompress := knownDecompress payload compressed
  blobToKzgCommitment blob :=
    if blob = singleBlob compressed then .ok commitment else .error "Bad arguments"

variable {headers : List (Bytes × B256)} {payload compressed commitment : Bytes} {digest : B256}

theorem knownLibs_decompress (n : Nat) :
    (knownLibs headers payload compressed commitment digest).decompress
      (compressed ++ List.replicate n 0x00) = .ok payload :=
  knownDecompress_append payload compressed _

theorem knownLibs_commitment (h : compressed.length < BlobBuilder.MAX_RAW_BYTES_PER_BLOB) :
    ∀ blob ∈ blobsOf compressed, CanonicalBlob blob → ∃ c,
      (knownLibs headers payload compressed commitment digest).blobToKzgCommitment blob =
        .ok c := by
  intro blob hblob _
  rw [blobsOf_single h, List.mem_singleton] at hblob
  exact ⟨commitment, if_pos hblob⟩

end OneBlob

end FluentStf.Nitro
