import FluentStf.Nitro.BuiltBlobs

/-! The check of the blobs inside the zkVM next to that of the enclave. The zkVM
looks for one executed block and stops there, the enclave walks the whole payload. -/
namespace FluentStf.Sp1

open Blob BlobBuilder Nitro

/-- Whether the item is the block with the given hash. -/
def isBlock (blockHash : B256) : Except BlobError BlockView → Bool
  | .ok view => view.blockHash = blockHash
  | .error _ => false

/-- The blob must be readable and have the executed block in it. -/
def blobCheck (lib : BlobLibs) (blobs : List Bytes) (stfBlockHash : B256) : Bool :=
  match decodeBlobPayload lib.decompress blobs with
  | .error _ => false
  | .ok payload =>
      Pull.any (BlockIter.next lib.keccak256) (isBlock stfBlockHash) (payload.length + 2)
        (iterBlocks payload)

variable {lib : BlobLibs} {blobs : List Bytes}

theorem isBlock_iff {blockHash : B256} {item : Except BlobError BlockView} :
    isBlock blockHash item = true ↔ item = .ok ⟨blockHash⟩ := by
  cases item with
  | error e => simp [isBlock]
  | ok view =>
      obtain ⟨found⟩ := view
      simp [isBlock]

/-- The check passes exactly if the block is among the items of the payload. -/
theorem blobCheck_iff {blockHash : B256} :
    blobCheck lib blobs blockHash = true ↔
      ∃ payload items, decodeBlobPayload lib.decompress blobs = .ok payload ∧
        Pull.Yields (BlockIter.next lib.keccak256) (iterBlocks payload) items ∧
        .ok ⟨blockHash⟩ ∈ items := by
  rcases hdecode : decodeBlobPayload lib.decompress blobs with e | payload
  · simp [blobCheck, hdecode]
  · obtain ⟨items, hyields, hlength⟩ := BlockIter.exists_yields lib.keccak256 payload
    have hfuel : items.length < payload.length + 2 := by omega
    rw [blobCheck, hdecode]
    simp only [Pull.any_eq (isBlock blockHash) hyields hfuel, List.any_eq_true, isBlock_iff,
      exists_eq_right]
    constructor
    · intro hmem
      exact ⟨payload, items, rfl, hyields, hmem⟩
    · rintro ⟨payload', items', hpayload, hyields', hmem⟩
      cases hpayload
      rwa [hyields.unique hyields']

/-- What the enclave accepts for some hashes passes the check for each of them. A
payload with the block in it either consists of blocks only, and then the enclave
accepts it for their hashes, or it is malformed behind the block, and then the
enclave accepts it for no hashes at all. -/
theorem sp1_and_nitro_agree (hfull : ∀ blob ∈ blobs, blob.length = Nitro.BYTES_PER_BLOB)
    (hkzg : ∀ blob ∈ blobs, CanonicalBlob blob →
      ∃ commitment, lib.blobToKzgCommitment blob = .ok commitment) :
    (∀ hashes versionedHashes, verifyBlobs lib blobs hashes = .ok versionedHashes →
      ∀ blockHash ∈ hashes, blobCheck lib blobs blockHash = true) ∧
    ∀ blockHash, blobCheck lib blobs blockHash = true →
      ∃ (payload : Bytes) (views : List BlockView),
        decodeBlobPayload lib.decompress blobs = .ok payload ∧
        BlockView.mk blockHash ∈ views ∧
        (Pull.Yields (BlockIter.next lib.keccak256) (iterBlocks payload) (views.map .ok) ∧
            (∃ versionedHashes,
              verifyBlobs lib blobs (views.map BlockView.blockHash) = .ok versionedHashes) ∨
          (∃ e, Pull.Yields (BlockIter.next lib.keccak256) (iterBlocks payload)
              (views.map .ok ++ [.error e])) ∧
            ∀ hashes versionedHashes, verifyBlobs lib blobs hashes ≠ .ok versionedHashes) := by
  constructor
  · intro hashes versionedHashes hverify blockHash hmem
    obtain ⟨payload, hdecode, hyields, _⟩ := verifyBlobs_ok_iff.mp hverify
    exact blobCheck_iff.mpr ⟨payload, _, hdecode, hyields,
      List.mem_map_of_mem (List.mem_map_of_mem hmem)⟩
  · intro blockHash hcheck
    obtain ⟨payload, items, hdecode, hyields, hmem⟩ := blobCheck_iff.mp hcheck
    obtain ⟨views, rfl | ⟨e, rfl⟩⟩ := BlockIter.yields_blocks hyields
    · obtain ⟨versionedHashes, hversioned⟩ := computeVersionedHashes_ok hfull hkzg hdecode
      refine ⟨payload, views, hdecode, by simpa using hmem, .inl ⟨hyields, versionedHashes, ?_⟩⟩
      refine verifyBlobs_ok_iff.mpr ⟨payload, hdecode, ?_, hversioned⟩
      rw [List.map_map, List.map_map]
      exact hyields
    · refine ⟨payload, views, hdecode, by simpa using hmem, .inr ⟨⟨e, hyields⟩, ?_⟩⟩
      intro hashes versionedHashes hverify
      obtain ⟨payload', hdecode', hyields', _⟩ := verifyBlobs_ok_iff.mp hverify
      cases hdecode.symm.trans hdecode'
      -- the error would have to be one of the blocks
      have herror : .error e ∈ (hashes.map BlockView.mk).map Except.ok := by
        rw [← hyields.unique hyields']
        simp
      simp at herror

/-- The payload of one block with a header of one empty field and no transactions,
followed by a byte that is no block. -/
def malformedPayload : Bytes := [0xc5, 0xc3, 0xc1, 0x80, 0xc0, 0x05]

def malformedCompressed : Bytes :=
  [0x8b, 0x02, 0x80, 0xc5, 0xc3, 0xc1, 0x80, 0xc0, 0x05, 0x03]

/-- The libraries on the blob with that payload. -/
def malformedLibs : BlobLibs :=
  knownLibs tinyDigests malformedPayload malformedCompressed
    (beBytes 32 0xb9fb83f26c725db5e4e3d74d25e7598e7bbd86a517cf63befc1fe55bf8e5fcfe ++
      beBytes 16 0xdd7e0f793181fbfa933fb39d1d077753)
    (.ofNat 0x8d9c5f45a5fa362e04fa03525b6ad6016489be0823131775ebfe0bb3d89e0731)

theorem malformedPayload_yields :
    Pull.Yields (BlockIter.next malformedLibs.keccak256) (iterBlocks malformedPayload)
      [.ok ⟨malformedLibs.keccak256 [0xc1, 0x80]⟩, .error .blockNotList] := by
  have hblock : (iterBlocks malformedPayload).next malformedLibs.keccak256 =
      (some (.ok ⟨malformedLibs.keccak256 [0xc1, 0x80]⟩), ⟨[0x05], true, 1, false⟩) := by
    decide +kernel
  have herror : (BlockIter.mk [0x05] true 1 false).next malformedLibs.keccak256 =
      (some (.error .blockNotList), ⟨[0x05], true, 1, true⟩) := by
    decide +kernel
  exact .item hblock (.item herror (.stop (BlockIter.next_of_done _ rfl)))

/-- The zkVM finds the block and accepts, but the items of the payload are not all
blocks, so the enclave has no hashes to accept it for. -/
theorem sp1_accepts_malformed_payload :
    (∀ blob ∈ blobsOf malformedCompressed, blob.length = Nitro.BYTES_PER_BLOB) ∧
      (∀ blob ∈ blobsOf malformedCompressed, CanonicalBlob blob →
        ∃ commitment, malformedLibs.blobToKzgCommitment blob = .ok commitment) ∧
      blobCheck malformedLibs (blobsOf malformedCompressed)
        (malformedLibs.keccak256 [0xc1, 0x80]) = true ∧
      (∀ (payload : Bytes) (views : List BlockView),
        decodeBlobPayload malformedLibs.decompress (blobsOf malformedCompressed) = .ok payload →
        ¬Pull.Yields (BlockIter.next malformedLibs.keccak256) (iterBlocks payload)
          (views.map .ok)) ∧
      ∀ hashes versionedHashes,
        verifyBlobs malformedLibs (blobsOf malformedCompressed) hashes ≠ .ok versionedHashes := by
  have hdecode : decodeBlobPayload malformedLibs.decompress (blobsOf malformedCompressed) =
      .ok malformedPayload := decodeBlobPayload_blobsOf knownLibs_decompress
  have hnot : ∀ views : List BlockView,
      ¬Pull.Yields (BlockIter.next malformedLibs.keccak256) (iterBlocks malformedPayload)
        (views.map .ok) := by
    intro views hyields
    have hmem : .error BlobError.blockNotList ∈ views.map Except.ok := by
      rw [← malformedPayload_yields.unique hyields]
      simp
    simp at hmem
  refine ⟨fun _ hblob => blobsOf_length hblob, knownLibs_commitment (by decide), ?_, ?_, ?_⟩
  · exact blobCheck_iff.mpr ⟨_, _, hdecode, malformedPayload_yields, by simp⟩
  · intro payload views hpayload
    cases hdecode.symm.trans hpayload
    exact hnot views
  · intro hashes versionedHashes hverify
    obtain ⟨payload, hpayload, hyields, _⟩ := verifyBlobs_ok_iff.mp hverify
    cases hdecode.symm.trans hpayload
    exact hnot _ hyields

/-- The libraries on the blob with two small blocks. -/
def tinyLibs : BlobLibs :=
  knownLibs tinyDigests (encodeBatchPayload tinyBlocks) tinyCompressed
    (beBytes 32 0xb6703b582ecf093ea779ba3d2b36ed236a1e255f5568d64134861187d9d10c7f ++
      beBytes 16 0x0a72856b49bb310da4ae90356ef79213)
    (.ofNat 0xd233c5d47801fbdb1dbbf680e5a48b7600ec59ae21db5e75eb18e8f3c13e436e)

theorem sp1_accepts_tinyBlocks :
    blobCheck tinyLibs (blobsOf tinyCompressed) (tinyLibs.keccak256 [0xc2, 0x80, 0x80]) = true := by
  have hkzg : ∀ blob ∈ blobsOf tinyCompressed, CanonicalBlob blob →
      ∃ commitment, tinyLibs.blobToKzgCommitment blob = .ok commitment :=
    knownLibs_commitment (by decide)
  have hbrotli : ∀ n, tinyLibs.decompress (tinyCompressed ++ List.replicate n 0x00) =
      .ok (encodeBatchPayload tinyBlocks) := knownLibs_decompress
  obtain ⟨versionedHashes, _, hverify⟩ :=
    verifyBlobs_built tinyBlocks_lists (by decide +kernel) hbrotli hkzg
  exact (sp1_and_nitro_agree (fun _ hblob => blobsOf_length hblob) hkzg).1 _ _ hverify _
    (by simp [tinyBlocks])

end FluentStf.Sp1
