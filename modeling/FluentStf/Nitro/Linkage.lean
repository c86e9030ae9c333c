import FluentStf.Nitro.Enclave

/-! Whether the blocks of a signed batch are one chain. The enclave does not compare
the parent hash of a block with the hash of the block before it, so this depends on
what the host let it execute. -/
namespace FluentStf.Nitro

open Blob BlobBuilder

variable {Input Key : Type} {p : Platform Input Key} {s : Enclave Input Key}

/-- The second block has the first one as its parent. -/
def Links (keccak : Bytes → B256) (x y : Execution Input) : Prop :=
  y.header.parentHash = x.blockHash keccak

/-- A signed batch is one chain in every run in which executed blocks of the range with
consecutive numbers are linked. The batch is signed with the key of the enclave, and its leaves
are those of blocks that were executed in this run. -/
theorem signed_batch_linked {events : List (Event Input Key)} {request : SubmitBatch}
    {response : SubmitBatchResponse} (hrun : Run p.Step (Enclave.new Input Key) events s)
    (hunforgeable : Unforgeable p s request)
    (hanswer : p.answer s = some (request, .ok response))
    (hlinked : ∀ x ∈ s.executions, ∀ y ∈ s.executions, request.first ≤ x.number →
      y.number ≤ request.last → y.number.toNat = x.number.toNat + 1 → Links p.keccak256 x y) :
    ∃ (key : Key) (batchRoot : B256) (xs : List (Execution Input)),
      s.identity = some key ∧ (∀ x ∈ xs, x ∈ s.executions) ∧
      response = signBatch p key batchRoot response.versionedHashes ∧
      xs.map Execution.number = blockRange request.first request.last ∧
      calculateMerkleRoot p.keccak256 (xs.map fun x => x.leaf p.keccak256) = some batchRoot ∧
      xs.IsChain (Links p.keccak256) := by
  obtain ⟨key, cached, batchRoot, versionedHashes, hkey, hbatch, hcheck, rfl⟩ := answer_ok hanswer
  obtain ⟨_, xs, hxs, hnumbers, hroot, _⟩ :=
    executions_of_checkBatch (Sound.run hrun) hkey hbatch hunforgeable hcheck
  refine ⟨key, batchRoot, xs, hkey, hxs, rfl, hnumbers, hroot, ?_⟩
  have hrange : ∀ x ∈ xs, request.first ≤ x.number ∧ x.number ≤ request.last := by
    intro x hx
    apply mem_blockRange.mp
    rw [← hnumbers]
    exact List.mem_map_of_mem hx
  have hchain := isChain_blockRange request.first request.last
  rw [← hnumbers, List.isChain_map] at hchain
  refine hchain.imp_of_mem_imp fun x y hx hy hnext => ?_
  exact hlinked x (hxs x hx) y (hxs y hy) (hrange x hx).1 (hrange y hy).2 hnext

section Sample

/-- A second block whose parent is not the first block. -/
def strayBlock : ExecutedBlock where
  header := sampleHeader 2
    (.ofNat 0x2222222222222222222222222222222222222222222222222222222222222222) Mpt.EMPTY_ROOT
  transactions := []

def strayHash : B256 := .ofNat 0x9c793e4a88f0a0411a96e06aca27f5b1c5ccfa06047637351bbe4f28f2767877

def unlinked : List FetchedBlock :=
  [⟨firstBlock.header.encode, firstBlock.transactions⟩,
    ⟨strayBlock.header.encode, strayBlock.transactions⟩]

def unlinkedCompressed : Bytes :=
  beBytes 32 0x1bb7040064609c0e3c88044809a2de38d7998755a7050790c1c769c081f76b19 ++
    beBytes 32 0x7cc88bed27109253c6cb27a4f51394f009222d004c8105e4334a177be346fed5 ++
    beBytes 32 0x51ad366d332b24cb3852a429f19eb80f85e2bfa22bc93229371aac40fb829290 ++
    beBytes 32 0x7446abec3f42ea2c69e0c3d940f68034d3b1760068ced27a6cd1425dc03dafdb ++
    beBytes 32 0x37c9f5a7aac73f2e29d8ceb4cbb3b735065ec3dcfd3acd5feeed9f0de9d77502 ++
    beBytes 32 0x010e160a8c044e0e8786465a693c0243e3a4582b2305b2a6624af4e1dae1fce1 ++
    beBytes 32 0x888c8254104e00c2d511295c652e16fda0adb9dc120008a52f60ba37e344dde4 ++
    beBytes 32 0xeba14efdd3f0b28936051f161a09bafd5b1ceac1a8aa2cccbd0b6ca62f373243 ++
    beBytes 32 0xbc496edac1ac0abc809957adc9e71d4b6a05e690c6347b01a7884f10e55b4a68 ++
    beBytes 11 0x1809efd2fa00a05b20e100

def unlinkedCommitment : Bytes :=
  beBytes 32 0x89dd36522303644df373e1bbacd598ff5eea11c991de7a14f302bf90a88b0ce4 ++
    beBytes 16 0x35030c7ea191b12bef219384b39808de

/-- Keccak-256 of the headers, of the leaves and of their pair. -/
def unlinkedDigests : List (Bytes × B256) :=
  [(firstBlock.header.encode, firstHash), (strayBlock.header.encode, strayHash),
    (B256.zero.bytes ++ firstHash.bytes ++ ZERO_BYTES_HASH.bytes ++ ZERO_BYTES_HASH.bytes,
      .ofNat 0x2ded23097b1bf3b917b4df89ffbc5b8f4444f359d6d299592cdf5031cec40703),
    (List.replicate 32 0x22 ++ strayHash.bytes ++ ZERO_BYTES_HASH.bytes ++ ZERO_BYTES_HASH.bytes,
      .ofNat 0x251c0459dabc8e48a513b2dc9b44e98b112c3c027292723439c77ed984fbfa48),
    (beBytes 32 0x2ded23097b1bf3b917b4df89ffbc5b8f4444f359d6d299592cdf5031cec40703 ++
        beBytes 32 0x251c0459dabc8e48a513b2dc9b44e98b112c3c027292723439c77ed984fbfa48,
      .ofNat 0xddffa9fba3ff54e4549ac13b8f12ff92b1dfa4276412bab16eb196f22dee7e85)]

def unlinkedLibs : BlobLibs :=
  knownLibs unlinkedDigests (encodeBatchPayload unlinked) unlinkedCompressed unlinkedCommitment
    (.ofNat 0x5fcb873c936e4d7f7a0e7db77dfddde9fb48fe0f438df7d8651c240cbf1bc9bf)

def unlinkedBatchDigest : B256 :=
  .ofNat 0x1c69e513a391bc9f04b9ded8d32c134e08dcda4c11b8008d968074cd2553779c

def unlinkedSignature : FixedBytes 64 × UInt8 :=
  (⟨beBytes 32 0xe2be744fd7d7c22a19f39f78f7250c2e78225a790fc295a4d7f2679b3695b4ce ++
      beBytes 32 0x1c558609257737add6de645ab48ad7933a119e7d4fbb0979cd0f07e29b5d2a65, by simp⟩, 1)

def unlinkedShaDigests : List (Bytes × B256) :=
  [(unlinkedCommitment,
      .ofNat 0x5fcb873c936e4d7f7a0e7db77dfddde9fb48fe0f438df7d8651c240cbf1bc9bf),
    (abiEncodeBatch 1 verifierAddress
        (.ofNat 0xddffa9fba3ff54e4549ac13b8f12ff92b1dfa4276412bab16eb196f22dee7e85)
        [.ofNat 0x01cb873c936e4d7f7a0e7db77dfddde9fb48fe0f438df7d8651c240cbf1bc9bf],
      unlinkedBatchDigest)]

/-- Libraries and signing key on the inputs of the batch with both blocks. -/
def unlinkedPlatform : Platform ExecutedBlock Nat :=
  knownPlatform unlinkedLibs unlinkedShaDigests unlinkedBatchDigest unlinkedSignature

/-- Two blocks that are no chain are signed as one batch. -/
theorem unlinked_batch_signed :
    Set.InjOn unlinkedPlatform.keccak256 {bytes | bytes ∈ unlinkedDigests.map Prod.fst} ∧
      ∃ (s : Enclave ExecutedBlock Nat) (response : SubmitBatchResponse) (batchRoot : B256),
        Run unlinkedPlatform.Step (Enclave.new ExecutedBlock Nat)
          (executeBoth firstBlock strayBlock (blobsOf unlinkedCompressed)) s ∧
        Unforgeable unlinkedPlatform s ⟨1, 2, [], blobsOf unlinkedCompressed⟩ ∧
        unlinkedPlatform.answer s =
          some (⟨1, 2, [], blobsOf unlinkedCompressed⟩, .ok response) ∧
        s.executions = [executionOf firstBlock, executionOf strayBlock] ∧
        response.batchRoot = batchRoot.bytes ∧
        calculateMerkleRoot unlinkedPlatform.keccak256
          [(executionOf firstBlock).leaf unlinkedPlatform.keccak256,
            (executionOf strayBlock).leaf unlinkedPlatform.keccak256] = some batchRoot ∧
        ¬Links unlinkedPlatform.keccak256 (executionOf firstBlock) (executionOf strayBlock) := by
  have hlists : ∀ block ∈ unlinked, IsList block.headerRlp := by
    simp only [unlinked, List.mem_cons, List.not_mem_nil, or_false, forall_eq_or_imp, forall_eq]
    exact ⟨sampleHeader_isList (by decide +kernel), sampleHeader_isList (by decide +kernel)⟩
  have hbrotli : ∀ n, unlinkedLibs.decompress (unlinkedCompressed ++ List.replicate n 0x00) =
      .ok (encodeBatchPayload unlinked) := knownLibs_decompress
  have hkzg : ∀ blob ∈ blobsOf unlinkedCompressed, CanonicalBlob blob → ∃ commitment,
      unlinkedLibs.blobToKzgCommitment blob = .ok commitment := knownLibs_commitment (by
    simp only [unlinkedCompressed, List.length_append, beBytes_length]
    decide)
  have hsize : (encodeBatchPayload unlinked).length < 2 ^ 64 := by decide +kernel
  have hfirst : firstBlock.header.number = 1 := rfl
  have hstray : strayBlock.header.number = 2 := rfl
  have hhashes : (unlinked.map fun block => unlinkedLibs.keccak256 block.headerRlp) =
      [firstBlock.header.hashSlow unlinkedLibs.keccak256,
        strayBlock.header.hashSlow unlinkedLibs.keccak256] := by
    simp only [unlinked, List.map_cons, List.map_nil, Header.hashSlow]
  obtain ⟨versionedHashes, hverify⟩ : ∃ versionedHashes,
      verifyBlobs unlinkedPlatform.toBlobLibs (blobsOf unlinkedCompressed)
        [firstBlock.header.hashSlow unlinkedLibs.keccak256,
          strayBlock.header.hashSlow unlinkedLibs.keccak256] = .ok versionedHashes := by
    rw [← hhashes]
    exact verifyBlobs_known hlists hsize hbrotli hkzg
  obtain ⟨s, hrun, hexecutions, hanswer⟩ := answer_executeBoth unlinkedLibs unlinkedShaDigests
    unlinkedBatchDigest unlinkedSignature hfirst hstray hverify
  refine ⟨injOn_tableHash (by decide +kernel) (fun _ h => h), s, _, _, hrun,
    fun _ _ _ h => absurd h List.not_mem_nil, hanswer, hexecutions,
    signBatch_batchRoot _ _ _ _, calculateMerkleRoot_pair _ _ _, ?_⟩
  unfold Links
  decide +kernel

/-- The two linked blocks are signed as one chain. -/
theorem signed_batch_linked_both : ∃ (s : Enclave ExecutedBlock Nat)
    (response : SubmitBatchResponse) (xs : List (Execution ExecutedBlock)),
    linkedPlatform.answer s = some (⟨1, 2, [], blobsOf linkedCompressed⟩, .ok response) ∧
      xs.map Execution.number = [1, 2] ∧ xs.IsChain (Links linkedPlatform.keccak256) := by
  obtain ⟨s, response, hrun, hexecutions, hanswer⟩ := linked_answer
  obtain ⟨_, _, xs, _, _, _, hnumbers, _, hchain⟩ := signed_batch_linked hrun
    (fun _ _ _ h => absurd h List.not_mem_nil) hanswer (by
      intro x hx y hy _ _ hnext
      rw [hexecutions] at hx hy
      simp only [List.mem_cons, List.not_mem_nil, or_false] at hx hy
      rcases hx with rfl | rfl <;> rcases hy with rfl | rfl
      · simp at hnext
      · unfold Links
        decide +kernel
      · exact absurd hnext (by decide)
      · simp at hnext)
  exact ⟨s, response, xs, hanswer, hnumbers.trans (by decide), hchain⟩

end Sample

end FluentStf.Nitro
