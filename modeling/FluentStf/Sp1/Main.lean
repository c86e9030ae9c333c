import FluentStf.Executor.SignedBatch
import FluentStf.Sp1

/-! The program that is proved in the zkVM when a block of a batch is challenged. It executes the
block as the enclave does, looks for it in the blobs and commits to the values that the leaf of
the block is the hash of. -/
namespace FluentStf.Sp1

open Blob BlobBuilder Nitro Executor

/-- The blobs with the commitments and proofs that the host computes for the guest. -/
structure BlobVerificationInput where
  blobs : List Bytes
  commitments : List Bytes
  proofs : List Bytes

/-- The number of bytes of a list of byte strings on the wire. Every length takes 8 bytes. -/
def vecsSize (vecs : List Bytes) : Nat := 8 + (vecs.map fun bytes => 8 + bytes.length).sum

def BlobVerificationInput.serializedSize (input : BlobVerificationInput) : Nat :=
  vecsSize input.blobs + vecsSize input.commitments + vecsSize input.proofs

/-- The guest panics if it would have to read more bytes than this for one of its inputs. -/
def MAX_INPUT_SIZE : Nat := 256 * 1024 * 1024

/-- The KZG library, on both sides. -/
structure KzgSettings where
  computeBlobKzgProof : Bytes → Bytes → Except String Bytes
  verifyBlobKzgProof : Bytes → Bytes → Bytes → Except String Bool

def BYTES_PER_COMMITMENT : Nat := 48

/-- An answer of the proxy that is no success. -/
inductive HandlerError where
  | badRequest (message : String)
  | internal (message : String)

section Host

variable (lib : BlobLibs) (kzg : KzgSettings)

/-- Commitment and proof for one blob. -/
def blobWitness (raw : Bytes) : Except HandlerError (Bytes × Bytes) := do
  require (raw.length = Nitro.BYTES_PER_BLOB) (.badRequest "Invalid blob bytes")
  let commitment ← (lib.blobToKzgCommitment raw).mapError fun e =>
    .internal ("KZG commitment failed: " ++ e)
  let proof ← (kzg.computeBlobKzgProof raw commitment).mapError fun e =>
    .internal ("KZG proof generation failed: " ++ e)
  return (commitment, proof)

def prepareBlobInput (rawBlobs : List Bytes) : Except HandlerError BlobVerificationInput := do
  let witnesses ← rawBlobs.mapM (blobWitness lib kzg)
  return ⟨rawBlobs, witnesses.map Prod.fst, witnesses.map Prod.snd⟩

end Host

section Guest

variable (lib : BlobLibs) (kzg : KzgSettings)

/-- The body of the loop over the blobs. -/
def verifyBlob (i : Nat) (blob commitment proof : Bytes) : Except String B256 := do
  require (blob.length = Nitro.BYTES_PER_BLOB) "Invalid blob slice"
  require (commitment.length = BYTES_PER_COMMITMENT) "Invalid commitment slice"
  require (proof.length = BYTES_PER_COMMITMENT) "Invalid proof slice"
  let isValid ← (kzg.verifyBlobKzgProof blob commitment proof).mapError fun _ =>
    "KZG internal error"
  require (isValid = true) ("KZG verification failed at blob index " ++ toString i)
  return versioned (lib.sha256 commitment)

/-- The loop from the given index on. The three lists have one length. -/
def verifyProofs : Nat → List Bytes → List Bytes → List Bytes → Except String (List B256)
  | i, blob :: blobs, commitment :: commitments, proof :: proofs => do
      let hash ← verifyBlob lib kzg i blob commitment proof
      let hashes ← verifyProofs (i + 1) blobs commitments proofs
      return hash :: hashes
  | _, _, _, _ => .ok []

/-- What the verifier on L1 reads. -/
def publicValues (header : Header) (eventsHash : BridgeHashes) (versionedHashes : List B256) :
    Bytes :=
  header.parentHash.bytes ++ (header.hashSlow lib.keccak256).bytes ++
    eventsHash.withdrawalHash.bytes ++ eventsHash.depositHash.bytes ++
    versionedHashes.flatMap B256.bytes

variable {Body Output Failure : Type} (config : EvmConfig Body Output Failure)
  (serializedSize : ClientInput Body → Nat)

/-- The guest on its two inputs, which are read with a limit. The number of bytes of the first is
that of the serialization library. An error is a panic, for which there is no proof. -/
def main (executorInput : ClientInput Body) (blobInput : BlobVerificationInput) :
    Except String Bytes := do
  require (serializedSize executorInput ≤ MAX_INPUT_SIZE) "SizeLimit"
  require (blobInput.serializedSize ≤ MAX_INPUT_SIZE) "SizeLimit"
  let (header, eventsHash) ← (execute config lib.keccak256 executorInput).mapError fun _ =>
    "STF execution failed"
  require (blobCheck lib blobInput.blobs (header.hashSlow lib.keccak256) = true)
    "DA/STF block_hash mismatch: target block not found in blob"
  require (blobInput.blobs.length = blobInput.commitments.length)
    "blobs / commitments length mismatch"
  require (blobInput.blobs.length = blobInput.proofs.length) "blobs / proofs length mismatch"
  let versionedHashes ← verifyProofs lib kzg 0 blobInput.blobs blobInput.commitments
    blobInput.proofs
  return publicValues lib header eventsHash versionedHashes

end Guest

section Lemmas

variable {lib : BlobLibs} {kzg : KzgSettings} {Body Output Failure : Type}
  {config : EvmConfig Body Output Failure} {serializedSize : ClientInput Body → Nat}

theorem main_eq_ok {input : ClientInput Body} {blobInput : BlobVerificationInput} {values : Bytes} :
    main lib kzg config serializedSize input blobInput = .ok values ↔
      serializedSize input ≤ MAX_INPUT_SIZE ∧ blobInput.serializedSize ≤ MAX_INPUT_SIZE ∧
      ∃ header eventsHash versionedHashes,
        execute config lib.keccak256 input = .ok (header, eventsHash) ∧
        blobCheck lib blobInput.blobs (header.hashSlow lib.keccak256) = true ∧
        blobInput.blobs.length = blobInput.commitments.length ∧
        blobInput.blobs.length = blobInput.proofs.length ∧
        verifyProofs lib kzg 0 blobInput.blobs blobInput.commitments blobInput.proofs =
          .ok versionedHashes ∧
        values = publicValues lib header eventsHash versionedHashes := by
  simp only [main, bind_eq_ok, mapError_eq_ok, require_eq_ok]
  constructor
  · rintro ⟨_, hsize, _, hblobs, ⟨header, eventsHash⟩, hrun, _, hfound, _, hcommitments, _, hproofs,
      versionedHashes, hverify, hvalues⟩
    exact ⟨hsize, hblobs, header, eventsHash, versionedHashes, hrun, hfound, hcommitments, hproofs,
      hverify, (Except.ok.inj hvalues).symm⟩
  · rintro ⟨hsize, hblobs, header, eventsHash, versionedHashes, hrun, hfound, hcommitments, hproofs,
      hverify, rfl⟩
    exact ⟨(), hsize, (), hblobs, (header, eventsHash), hrun, (), hfound, (), hcommitments, (),
      hproofs, versionedHashes, hverify, rfl⟩

theorem blobWitness_ok {raw commitment proof : Bytes} (hlength : raw.length = Nitro.BYTES_PER_BLOB)
    (hcommitment : lib.blobToKzgCommitment raw = .ok commitment)
    (hproof : kzg.computeBlobKzgProof raw commitment = .ok proof) :
    blobWitness lib kzg raw = .ok (commitment, proof) := by
  simp only [blobWitness, bind_eq_ok, mapError_eq_ok, require_eq_ok]
  exact ⟨(), hlength, commitment, hcommitment, proof, hproof, rfl⟩

theorem verifyBlob_ok {i : Nat} {blob commitment proof : Bytes}
    (hlength : blob.length = Nitro.BYTES_PER_BLOB)
    (hcommitment : commitment.length = BYTES_PER_COMMITMENT)
    (hproof : proof.length = BYTES_PER_COMMITMENT)
    (hvalid : kzg.verifyBlobKzgProof blob commitment proof = .ok true) :
    verifyBlob lib kzg i blob commitment proof = .ok (versioned (lib.sha256 commitment)) := by
  simp only [verifyBlob, bind_eq_ok, mapError_eq_ok, require_eq_ok]
  exact ⟨(), hlength, (), hcommitment, (), hproof, true, hvalid, (), rfl, rfl⟩

variable {versionedHashes : List B256} {blobs : List Bytes}

/-- Blobs, commitments and proofs of the right lengths take a fixed number of bytes each. -/
theorem serializedSize_of_verifyProofs {i : Nat} {commitments proofs : List Bytes}
    (h : verifyProofs lib kzg i blobs commitments proofs = .ok versionedHashes)
    (hcommitments : blobs.length = commitments.length) (hproofs : blobs.length = proofs.length) :
    BlobVerificationInput.serializedSize ⟨blobs, commitments, proofs⟩ =
      24 + 131192 * blobs.length := by
  induction blobs generalizing i commitments proofs versionedHashes with
  | nil =>
      cases List.length_eq_zero_iff.mp hcommitments.symm
      cases List.length_eq_zero_iff.mp hproofs.symm
      rfl
  | cons blob blobs ih =>
      obtain ⟨commitment, commitments, rfl⟩ :=
        List.exists_cons_of_length_eq_add_one hcommitments.symm
      obtain ⟨proof, proofs, rfl⟩ := List.exists_cons_of_length_eq_add_one hproofs.symm
      simp only [verifyProofs, verifyBlob, bind_eq_ok, require_eq_ok] at h
      obtain ⟨_, ⟨_, hblob, _, hcommitment, _, hproof, _⟩, hashes, hrest, _⟩ := h
      have hsize := ih hrest (Nat.succ.inj hcommitments) (Nat.succ.inj hproofs)
      simp only [BlobVerificationInput.serializedSize, vecsSize, List.map_cons, List.sum_cons,
        List.length_cons, hblob, hcommitment, hproof, Nitro.BYTES_PER_BLOB,
        BYTES_PER_COMMITMENT] at hsize ⊢
      omega

variable (lib) in
/-- The first four words are what the leaf is the hash of. -/
theorem publicValues_leaf {Input : Type} (x : Execution Input) (versionedHashes : List B256) :
    lib.keccak256 ((publicValues lib x.header x.bridge versionedHashes).take 128) =
        x.leaf lib.keccak256 ∧
      (publicValues lib x.header x.bridge versionedHashes).drop 128 =
        versionedHashes.flatMap B256.bytes := by
  have hlength : (x.header.parentHash.bytes ++ (x.header.hashSlow lib.keccak256).bytes ++
      x.bridge.withdrawalHash.bytes ++ x.bridge.depositHash.bytes).length = 128 := by
    simp only [List.length_append, B256.length_eq]
  rw [publicValues, List.take_left' hlength, List.drop_left' hlength]
  exact ⟨rfl, rfl⟩

/-- Proofs can be computed for all commitments, and they are accepted. -/
def KzgSettings.Complete (kzg : KzgSettings) (lib : BlobLibs) : Prop :=
  ∀ blob commitment, lib.blobToKzgCommitment blob = .ok commitment →
    commitment.length = BYTES_PER_COMMITMENT ∧
      ∃ proof, kzg.computeBlobKzgProof blob commitment = .ok proof ∧
        proof.length = BYTES_PER_COMMITMENT ∧
        kzg.verifyBlobKzgProof blob commitment proof = .ok true

/-- Blobs with versioned hashes are prepared by the host, and the guest computes the same. -/
theorem verifyProofs_prepared (hcomplete : kzg.Complete lib) {i : Nat}
    (h : versionedHashesFrom lib i blobs = .ok versionedHashes) :
    ∃ witnesses, blobs.mapM (blobWitness lib kzg) = .ok witnesses ∧
      verifyProofs lib kzg i blobs (witnesses.map Prod.fst) (witnesses.map Prod.snd) =
        .ok versionedHashes := by
  induction blobs generalizing i versionedHashes with
  | nil =>
      cases h
      exact ⟨[], rfl, rfl⟩
  | cons blob blobs ih =>
      simp only [versionedHashesFrom, blobToVersionedHash] at h
      split_ifs at h with hlength
      rw [not_not] at hlength
      cases hcommitment : lib.blobToKzgCommitment blob with
      | error e => simp [hcommitment] at h
      | ok commitment =>
          rw [hcommitment] at h
          cases hrest : versionedHashesFrom lib (i + 1) blobs with
          | error e => simp [hrest] at h
          | ok hashes =>
              rw [hrest] at h
              cases h
              obtain ⟨hsize, proof, hproof, hproofSize, hvalid⟩ :=
                hcomplete blob commitment hcommitment
              obtain ⟨witnesses, hwitnesses, hproofs⟩ := ih hrest
              refine ⟨(commitment, proof) :: witnesses, ?_, ?_⟩
              · rw [List.mapM_cons, blobWitness_ok hlength hcommitment hproof, hwitnesses]
                rfl
              · rw [List.map_cons, List.map_cons, verifyProofs,
                  verifyBlob_ok hlength hsize hproofSize hvalid, hproofs]
                rfl

/-- The zkVM finds every block that the enclave checked the blobs for. -/
theorem blobCheck_of_verifyBlobs {hashes : List B256}
    (h : verifyBlobs lib blobs hashes = .ok versionedHashes) {blockHash : B256}
    (hmem : blockHash ∈ hashes) : blobCheck lib blobs blockHash = true := by
  obtain ⟨payload, hdecode, hyields, -⟩ := verifyBlobs_ok_iff.mp h
  exact blobCheck_iff.mpr ⟨payload, _, hdecode, hyields,
    List.mem_map_of_mem (List.mem_map_of_mem hmem)⟩

variable (config serializedSize) in
/-- A block whose blobs the enclave accepts is accepted in the zkVM, on the input that the host
prepares, unless the input of the block is too long or there are too many blobs. -/
theorem main_of_verifyBlobs (hcomplete : kzg.Complete lib) {hashes : List B256}
    (h : verifyBlobs lib blobs hashes = .ok versionedHashes) :
    ∃ blobInput, prepareBlobInput lib kzg blobs = .ok blobInput ∧
      ∀ (input : ClientInput Body) (header : Header) (eventsHash : BridgeHashes),
        execute config lib.keccak256 input = .ok (header, eventsHash) →
        header.hashSlow lib.keccak256 ∈ hashes → ∀ values,
        (main lib kzg config serializedSize input blobInput = .ok values ↔
          serializedSize input ≤ MAX_INPUT_SIZE ∧ blobs.length ≤ 2046 ∧
            values = publicValues lib header eventsHash versionedHashes) := by
  obtain ⟨-, -, -, hversioned⟩ := verifyBlobs_ok_iff.mp h
  obtain ⟨witnesses, hwitnesses, hproofs⟩ := verifyProofs_prepared hcomplete hversioned
  have hlength : blobs.length = witnesses.length := (mapM_eq_ok.mp hwitnesses).length_eq
  have hsize := serializedSize_of_verifyProofs hproofs (by rw [List.length_map, hlength])
    (by rw [List.length_map, hlength])
  refine ⟨⟨blobs, witnesses.map Prod.fst, witnesses.map Prod.snd⟩, ?_, ?_⟩
  · rw [prepareBlobInput, hwitnesses]
    rfl
  · intro input header eventsHash hrun hmem values
    rw [main_eq_ok, hsize, MAX_INPUT_SIZE]
    refine and_congr_right fun _ => and_congr (by omega) ⟨?_, fun hvalues => ?_⟩
    · rintro ⟨_, _, _, hrun', -, -, -, hproofs', hvalues⟩
      cases hrun.symm.trans hrun'
      cases hproofs.symm.trans hproofs'
      exact hvalues
    · exact ⟨header, eventsHash, versionedHashes, hrun, blobCheck_of_verifyBlobs h hmem,
        by rw [List.length_map, hlength], by rw [List.length_map, hlength], hproofs, hvalues⟩

end Lemmas

section Batches

variable {Body Output Failure Key : Type} (config : EvmConfig Body Output Failure)
  (describe : ClientFault Failure → String) (libs : Platform (ClientInput Body) Key)
  (kzg : KzgSettings) (serializedSize : ClientInput Body → Nat)
  {events : List (Event (ClientInput Body) Key)} {s : Enclave (ClientInput Body) Key}

/-- In every run of the enclave, a block of a batch that it signs can be proved in the zkVM if and
only if its input takes at most 256 MiB, half of what the enclave takes, and the batch has at most
2046 blobs: from these the host prepares an input on which the guest then succeeds for the input
that the enclave executed. The values it commits to are the leaf of the block, before hashing, and
the blob hashes that were signed. -/
theorem signed_batch_provable (hcomplete : kzg.Complete libs.toBlobLibs) {request : SubmitBatch}
    {response : SubmitBatchResponse}
    (hrun : Run (clientPlatform config describe libs).Step (Enclave.new (ClientInput Body) Key)
      events s)
    (hunforgeable : Unforgeable (clientPlatform config describe libs) s request)
    (hanswer : (clientPlatform config describe libs).answer s = some (request, .ok response)) :
    ∃ (blobInput : BlobVerificationInput) (key : Key) (batchRoot : B256)
      (xs : List (Execution (ClientInput Body))),
      prepareBlobInput libs.toBlobLibs kzg request.blobs = .ok blobInput ∧
      s.identity = some key ∧
      response = signBatch (clientPlatform config describe libs) key batchRoot
        response.versionedHashes ∧
      xs.map Execution.number = blockRange request.first request.last ∧
      calculateMerkleRoot libs.keccak256 (xs.map fun x => x.leaf libs.keccak256) =
        some batchRoot ∧
      ∀ x ∈ xs, x ∈ s.executions ∧
        ((∃ values, main libs.toBlobLibs kzg config serializedSize x.input blobInput = .ok values) ↔
          serializedSize x.input ≤ MAX_INPUT_SIZE ∧ request.blobs.length ≤ 2046) ∧
        ∀ values, main libs.toBlobLibs kzg config serializedSize x.input blobInput = .ok values →
          libs.keccak256 (values.take 128) = x.leaf libs.keccak256 ∧
            values.drop 128 = response.versionedHashes.flatMap B256.bytes := by
  obtain ⟨key, cached, batchRoot, versionedHashes, hkey, hbatch, hcheck, rfl⟩ := answer_ok hanswer
  have hsound := Sound.run hrun
  obtain ⟨-, xs, hxs, hnumbers, hroot, hverify⟩ :=
    executions_of_checkBatch hsound hkey hbatch hunforgeable hcheck
  obtain ⟨blobInput, hprepare, hmain⟩ :=
    main_of_verifyBlobs config serializedSize hcomplete hverify
  refine ⟨blobInput, key, batchRoot, xs, hprepare, hkey, rfl, hnumbers, hroot, fun x hx => ?_⟩
  have hexecuted := clientPlatform_execute.mp (hsound.executed x (hxs x hx))
  have hvalues := hmain x.input x.header x.bridge hexecuted (List.mem_map_of_mem hx)
  refine ⟨hxs x hx, ⟨?_, fun ⟨hsize, hblobs⟩ => ⟨_, (hvalues _).mpr ⟨hsize, hblobs, rfl⟩⟩⟩, ?_⟩
  · rintro ⟨values, hok⟩
    obtain ⟨hsize, hblobs, -⟩ := (hvalues values).mp hok
    exact ⟨hsize, hblobs⟩
  · intro values hok
    rw [((hvalues values).mp hok).2.2]
    exact publicValues_leaf libs.toBlobLibs x versionedHashes

/-- A proof about a block cannot contradict the enclave: if the guest succeeds for a block that the
enclave executed, on whatever input for it, the first four words that it commits to hash to the
leaf of the enclave. Both inputs have to be admissible, and hashes have to keep their nodes and
those of the full tries apart; the guest can check neither. -/
theorem proof_confirms_leaf
    (hrun : Run (clientPlatform config describe libs).Step (Enclave.new (ClientInput Body) Key)
      events s) {x : Execution (ClientInput Body)} (hx : x ∈ s.executions)
    {input : ClientInput Body} {blobInput : BlobVerificationInput} {values : Bytes}
    (hmain : main libs.toBlobLibs kzg config serializedSize input blobInput = .ok values)
    (hblock : input.block = x.input.block) {world : World}
    {accounts : B256 → Option Mpt.TrieAccount}
    {F : Mpt.EthereumState} (hworld : world.HeldBy libs.keccak256 accounts F)
    (hroot : ∀ parent ∈ x.input.ancestorHeaders.head?, parent.stateRoot =
      F.stateRoot libs.keccak256)
    (hinj : Set.InjOn libs.keccak256 {encoded | ∃ header ∈
      x.input.ancestorHeaders ++ input.ancestorHeaders, header.encode = encoded})
    {code : B256 → Option Bytes} {chain : Nat → Header}
    (hx' : Admissible libs.keccak256 code chain x.input)
    (hinput : Admissible libs.keccak256 code chain input)
    (hxapart : HashesApart libs.keccak256 x.input.parentState.toEthereumState F)
    (hapart : HashesApart libs.keccak256 input.parentState.toEthereumState F) :
    libs.keccak256 (values.take 128) = x.leaf libs.keccak256 := by
  have hexecuted := clientPlatform_execute.mp ((Sound.run hrun).executed x hx)
  obtain ⟨-, -, header, eventsHash, versionedHashes, hguest, -, -, -, -, rfl⟩ :=
    main_eq_ok.mp hmain
  have hroot' : ∀ parent ∈ input.ancestorHeaders.head?,
      parent.stateRoot = F.stateRoot libs.keccak256 := by
    obtain ⟨parent, rest, hparents, hparent⟩ := parent_of_execute hguest
    obtain ⟨parent', rest', hparents', hparent'⟩ := parent_of_execute hexecuted
    have hhash : header.parentHash = x.header.parentHash := by
      rw [(execute_eq_ok.mp hguest).2, (execute_eq_ok.mp hexecuted).2]
      exact congrArg (fun block => block.header.parentHash) hblock
    have hsame : parent.encode = parent'.encode :=
      hinj ⟨parent, by simp [hparents], rfl⟩ ⟨parent', by simp [hparents'], rfl⟩
        (hparent.trans (hhash.trans hparent'.symm))
    rw [hparents]
    rintro _ ⟨⟩
    rw [(fields_eq_of_encode hsame).1]
    exact hroot parent' (by rw [hparents']; rfl)
  obtain ⟨rfl, rfl⟩ := Prod.mk.inj
    (execute_unique hguest hexecuted hblock hworld hroot' hroot hinput hx' hapart hxapart)
  exact (publicValues_leaf libs.toBlobLibs x versionedHashes).1

end Batches

section Sample

/-- Proofs of the right size, all of which are accepted. -/
def zeroProofs : KzgSettings :=
  ⟨fun _ _ => .ok (List.replicate 48 0), fun _ _ _ => .ok true⟩

theorem zeroProofs_complete : zeroProofs.Complete idleLibs.toBlobLibs := by
  intro blob commitment h
  have hcommitment : commitment = linkedCommitment := by
    change (if blob = singleBlob linkedCompressed then .ok linkedCommitment
      else .error "Bad arguments") = Except.ok commitment at h
    split_ifs at h
    exact (Except.ok.inj h).symm
  subst hcommitment
  refine ⟨?_, List.replicate 48 0, rfl, List.length_replicate, rfl⟩
  rw [linkedCommitment, List.length_append, beBytes_length, beBytes_length]
  rfl

/-- The size of a small input. -/
def smallSize (_ : ClientInput Unit) : Nat := 2000

/-- The blobs with both linked blocks are prepared for the zkVM. -/
theorem signed_batch_provable_idle : ∃ (response : SubmitBatchResponse)
    (blobInput : BlobVerificationInput) (batchRoot : B256)
    (xs : List (Execution (ClientInput Unit))),
    prepareBlobInput idleLibs.toBlobLibs zeroProofs (blobsOf linkedCompressed) = .ok blobInput ∧
      response.batchRoot = batchRoot.bytes ∧ xs.map Execution.number = [1, 2] ∧
      ∀ x ∈ xs, ∃ values,
        main idleLibs.toBlobLibs zeroProofs idleConfig smallSize x.input blobInput = .ok values ∧
        values.drop 128 = response.versionedHashes.flatMap B256.bytes := by
  obtain ⟨s, response, events, hrun, hexecutions, hanswer⟩ := idle_answer
  obtain ⟨blobInput, key, batchRoot, xs, hprepare, -, hresponse, hnumbers, -, hproved⟩ :=
    signed_batch_provable idleConfig _ idleLibs zeroProofs smallSize zeroProofs_complete hrun
      (fun _ _ _ h => absurd h List.not_mem_nil) hanswer
  refine ⟨response, blobInput, batchRoot, xs, hprepare, ?_, hnumbers.trans (by decide), ?_⟩
  · rw [hresponse, signBatch_batchRoot]
  · intro x hx
    obtain ⟨-, hprovable, hvalues⟩ := hproved x hx
    obtain ⟨values, hmain⟩ := hprovable.mpr ⟨by simp [smallSize, MAX_INPUT_SIZE], by decide +kernel⟩
    exact ⟨values, hmain, (hvalues values hmain).2⟩

/-- The first block with a code in its witness that nothing reads. -/
def otherInput : ClientInput Unit := { firstInput with bytecodes := [[0x00]] }

theorem otherInput_executed :
    execute idleConfig idleLibs.keccak256 (idleExecution otherInput).input =
      .ok ((idleExecution otherInput).header, (idleExecution otherInput).bridge) :=
  execute_idle (by decide +kernel) rfl

/-- The leaf of the first block is confirmed with the other witness. -/
theorem proof_confirms_leaf_other : ∃ blobInput values,
    main idleLibs.toBlobLibs zeroProofs idleConfig smallSize otherInput blobInput = .ok values ∧
      idleLibs.keccak256 (values.take 128) =
        (idleExecution firstInput).leaf idleLibs.keccak256 := by
  obtain ⟨s, response, events, hrun, hexecutions, -⟩ := idle_answer
  obtain ⟨versionedHashes, hverify⟩ := idle_verified
  obtain ⟨blobInput, hprepare, hmain⟩ :=
    main_of_verifyBlobs idleConfig smallSize zeroProofs_complete hverify
  have hvalues := (hmain otherInput _ _ otherInput_executed (.head _) _).mpr
    ⟨by decide, by decide +kernel, rfl⟩
  have hfirst := (idle_inputs _ (.head _)).2
  have hadmissible : Admissible idleLibs.keccak256 (fun _ => some [0x00]) linkedChain firstInput :=
    ⟨hfirst.written, by simp [firstInput, idleInput], hfirst.ancestry, hfirst.headers,
      hfirst.genesis⟩
  have hother : Admissible idleLibs.keccak256 (fun _ => some [0x00]) linkedChain otherInput :=
    ⟨hfirst.written, by simp [otherInput], hfirst.ancestry, hfirst.headers, hfirst.genesis⟩
  have hroot : ∀ parent ∈ firstInput.ancestorHeaders.head?,
      parent.stateRoot = World.emptyTries.stateRoot idleLibs.keccak256 := by
    rintro _ ⟨⟩
    rfl
  have hinj : Set.InjOn idleLibs.keccak256 {encoded | ∃ header ∈
      firstInput.ancestorHeaders ++ otherInput.ancestorHeaders, header.encode = encoded} := by
    refine idle_headers.mono ?_
    rintro _ ⟨header, hheader, rfl⟩
    have hparent : header ∈ firstInput.ancestorHeaders := (List.mem_append.mp hheader).elim id id
    exact ⟨idleExecution firstInput, .head _, .inr ⟨header, hparent, rfl⟩⟩
  exact ⟨blobInput, _, hvalues, proof_confirms_leaf idleConfig _ idleLibs zeroProofs smallSize
    hrun (by rw [hexecutions]; exact .head _) hvalues rfl
      (emptyWorld_heldBy _) hroot hinj hadmissible
    hother empty_apart empty_apart⟩

end Sample

end FluentStf.Sp1
