import FluentStf.Executor.Soundness
import FluentStf.Nitro.Linkage

/-! The batches that the enclave signs, as transitions of the world. The blocks of a batch whose
headers are linked are executed one after the other, each on the world that the one before it
left. -/
namespace FluentStf.Executor

open Mpt Nitro BlobBuilder

variable {Body Output Failure Key : Type}

section

variable (config : EvmConfig Body Output Failure) (keccak : Bytes → B256)
  (code : B256 → Option Bytes) (chain : Nat → Header)

/-- Blocks that are executed one after the other, from one world to another, with the bridge
hashes of their outputs. -/
inductive Replays : World → List (Execution (ClientInput Body)) → World → Prop
  | nil (world : World) : Replays world [] world
  | cons {world final : World} {x : Execution (ClientInput Body)}
      {rest : List (Execution (ClientInput Body))} {output : Output}
      (run : runOn config keccak code chain world x.input.block = some (.ok output))
      (bridge : BRIDGE_INFO.calculateBridgeHashes keccak (config.receipts output) = some x.bridge)
      (tail : Replays (world.after (config.hashedPostState output)) rest final) :
      Replays world (x :: rest) final

/-- What is assumed of the inputs of successive blocks, each next to the tries of the world that
it is executed on: hashes are kept apart, and no deletion collapses onto a hidden node. -/
inductive Assumed : World → List (Execution (ClientInput Body)) → Prop
  | nil (world : World) : Assumed world []
  | cons {world : World} {x : Execution (ClientInput Body)}
      {rest : List (Execution (ClientInput Body))} {accounts : B256 → Option TrieAccount}
      {F : EthereumState} (input : Admissible keccak code chain x.input)
      (held : world.HeldBy keccak accounts F)
      (apart : HashesApart keccak x.input.parentState.toEthereumState F)
      (safe : ∀ output, runOn config keccak code chain world x.input.block = some (.ok output) →
        SafeUpdate keccak (config.hashedPostState output) x.input.parentState.toEthereumState F
          (config.hashedPostState output).accounts)
      (tail : ∀ output, runOn config keccak code chain world x.input.block = some (.ok output) →
        Assumed (world.after (config.hashedPostState output)) rest) : Assumed world (x :: rest)

/-- The headers that have to be told apart along a list of blocks. -/
def batchHeaders (xs : List (Execution (ClientInput Body))) : Set Bytes :=
  {encoded | ∃ x ∈ xs, x.header.encode = encoded ∨
    ∃ header ∈ x.input.ancestorHeaders, header.encode = encoded}

end

section

variable {config : EvmConfig Body Output Failure} {keccak : Bytes → B256}
  {code : B256 → Option Bytes} {chain : Nat → Header}

/-- The parent of an accepted block is the header that its parent hash is the hash of. -/
theorem parent_of_execute {input : ClientInput Body} {header : Header} {hashes : BridgeHashes}
    (h : execute config keccak input = .ok (header, hashes)) :
    ∃ parent rest, input.ancestorHeaders = parent :: rest ∧
      parent.hashSlow keccak = header.parentHash := by
  obtain ⟨⟨db, output, state, hexecuted⟩, rfl⟩ := execute_eq_ok.mp h
  obtain ⟨parent, rest, blockHashes, hparents, -, -, hhashes, -⟩ :=
    witnessDb_eq_ok.mp hexecuted.witness
  obtain ⟨hlinked, -⟩ := checkHeaders_eq_ok.mp hhashes
  rw [ClientExecutorInput.sealedHeaders, hparents] at hlinked
  exact ⟨parent, rest, hparents, (List.isChain_cons_cons.mp hlinked).1.2⟩

/-- Linked blocks that the client accepts, from a world with the state root of their first
parent. -/
theorem replays_of_executed {xs : List (Execution (ClientInput Body))} {world : World}
    (hexecuted : ∀ x ∈ xs, execute config keccak x.input = .ok (x.header, x.bridge))
    (hlinked : xs.IsChain (Links keccak))
    (hinj : Set.InjOn keccak (batchHeaders xs))
    (hroot : ∀ x ∈ xs.head?, ∀ parent ∈ x.input.ancestorHeaders.head?,
      world.IsStateRoot keccak parent.stateRoot)
    (hassumed : Assumed config keccak code chain world xs) :
    ∃ final, Replays config keccak code chain world xs final ∧
      ∀ x ∈ xs.getLast?, final.IsStateRoot keccak x.header.stateRoot := by
  induction xs generalizing world with
  | nil => exact ⟨world, .nil world, by simp⟩
  | cons x rest ih =>
      cases hassumed with
      | @cons _ _ _ accounts F hinput hheld hapart hsafe htail =>
          have hrun := hexecuted x (.head _)
          obtain ⟨⟨db, output, state, hx⟩, hheader⟩ := execute_eq_ok.mp hrun
          have hparents : ∀ parent ∈ x.input.ancestorHeaders.head?,
              parent.stateRoot = F.stateRoot keccak := fun parent hparent =>
            (hroot x rfl parent hparent).unique hheld.isStateRoot
          obtain ⟨houtput, hafter⟩ := hx.sound hheld hparents hinput hapart
          have hnext : (world.after (config.hashedPostState output)).IsStateRoot keccak
              x.header.stateRoot := by
            rw [hheader]
            exact hafter (hsafe output houtput)
          have hrestRoot : ∀ y ∈ rest.head?, ∀ parent ∈ y.input.ancestorHeaders.head?,
              (world.after (config.hashedPostState output)).IsStateRoot keccak
                parent.stateRoot := by
            intro y hy parent hparent
            cases rest with
            | nil => cases hy
            | cons y' rest =>
                cases hy
                obtain ⟨parent', _, hparents', hhash⟩ :=
                  parent_of_execute (hexecuted y (.tail _ (.head _)))
                rw [hparents'] at hparent
                cases hparent
                have hmember : parent ∈ y.input.ancestorHeaders := by
                  rw [hparents']
                  exact .head _
                have hsame : parent.encode = x.header.encode :=
                  hinj ⟨y, .tail _ (.head _), .inr ⟨parent, hmember, rfl⟩⟩
                    ⟨x, .head _, .inl rfl⟩ (hhash.trans (List.isChain_cons_cons.mp hlinked).1)
                rw [(fields_eq_of_encode hsame).1]
                exact hnext
          have hheaders : batchHeaders rest ⊆ batchHeaders (x :: rest) :=
            fun _ ⟨y, hy, h⟩ => ⟨y, .tail _ hy, h⟩
          obtain ⟨final, hreplays, hfinal⟩ := ih (fun y hy => hexecuted y (.tail _ hy))
            hlinked.tail (hinj.mono hheaders) hrestRoot (htail output houtput)
          refine ⟨final, .cons houtput hx.hashes hreplays, fun last hlast => ?_⟩
          cases rest with
          | nil =>
              cases hreplays
              cases hlast
              exact hnext
          | cons y rest => exact hfinal last (by simpa using hlast)

end

/-- The enclave with the client as its executor. -/
def clientPlatform (config : EvmConfig Body Output Failure)
    (describe : ClientFault Failure → String) (libs : Platform (ClientInput Body) Key) :
    Platform (ClientInput Body) Key :=
  { libs with
    execute := fun input => match FluentStf.Executor.execute config libs.keccak256 input with
      | .ok result => .ok result
      | .error e => .error (describe e) }

theorem clientPlatform_execute {config : EvmConfig Body Output Failure}
    {describe : ClientFault Failure → String} {libs : Platform (ClientInput Body) Key}
    {input : ClientInput Body} {result : Header × BridgeHashes} :
    (clientPlatform config describe libs).execute input = .ok result ↔
      execute config libs.keccak256 input = .ok result := by
  simp only [clientPlatform]
  cases execute config libs.keccak256 input <;> simp

/-- In every run of the enclave, a batch that it signs is a transition of the world: its root is
that of the leaves of blocks which the enclave executed, one for each number, and whenever these
blocks are linked, they lead from every world with the state root of their first parent to a world
with the state root of the last header. -/
theorem signed_batch_replays (config : EvmConfig Body Output Failure)
    (describe : ClientFault Failure → String) (libs : Platform (ClientInput Body) Key)
    {events : List (Event (ClientInput Body) Key)} {s : Enclave (ClientInput Body) Key}
    {request : SubmitBatch} {response : SubmitBatchResponse}
    (hrun : Run (clientPlatform config describe libs).Step (Enclave.new (ClientInput Body) Key)
      events s)
    (hunforgeable : Unforgeable (clientPlatform config describe libs) s request)
    (hanswer : (clientPlatform config describe libs).answer s = some (request, .ok response)) :
    ∃ (key : Key) (batchRoot : B256) (xs : List (Execution (ClientInput Body))),
      s.identity = some key ∧
      response = signBatch (clientPlatform config describe libs) key batchRoot
        response.versionedHashes ∧
      (∀ x ∈ xs, x ∈ s.executions) ∧
      xs.map Execution.number = blockRange request.first request.last ∧
      calculateMerkleRoot libs.keccak256 (xs.map fun x => x.leaf libs.keccak256) =
        some batchRoot ∧
      ∀ (world : World) (code : B256 → Option Bytes) (chain : Nat → Header),
        (∀ x ∈ xs.head?, ∀ parent ∈ x.input.ancestorHeaders.head?,
          world.IsStateRoot libs.keccak256 parent.stateRoot) →
        xs.IsChain (Links libs.keccak256) →
        Set.InjOn libs.keccak256 (batchHeaders xs) →
        Assumed config libs.keccak256 code chain world xs →
        ∃ final, Replays config libs.keccak256 code chain world xs final ∧
          ∀ x ∈ xs.getLast?, final.IsStateRoot libs.keccak256 x.header.stateRoot := by
  obtain ⟨key, cached, batchRoot, versionedHashes, hkey, hbatch, hcheck, rfl⟩ := answer_ok hanswer
  have hsound := Sound.run hrun
  obtain ⟨-, xs, hxs, hnumbers, hroot, -⟩ :=
    executions_of_checkBatch hsound hkey hbatch hunforgeable hcheck
  refine ⟨key, batchRoot, xs, hkey, rfl, hxs, hnumbers, hroot, ?_⟩
  intro world code chain hworld hlinked hinj hassumed
  refine replays_of_executed (fun x hx => ?_) hlinked hinj hworld hassumed
  exact clientPlatform_execute.mp (hsound.executed x (hxs x hx))

section Sample

/-- A block that reads and changes nothing. -/
def idleConfig : EvmConfig Unit Unit Unit where
  tryIntoRecovered _ := true
  validateHeader _ := .ok ()
  validateBodyAgainstHeader _ _ := .ok ()
  validateHeaderAgainstParent _ _ := .ok ()
  requests _ := .done (.ok ())
  validateBlockPostExecution _ _ := .ok ()
  receipts _ := []
  hashedPostState _ := ⟨[], []⟩
  accounts_nodup _ := by simp
  slots_nodup _ _ := by simp [HashedPostState.storageOf]

def emptyWorld : World := ⟨fun _ => none, fun _ _ => 0, fun _ _ _ => rfl⟩

def idleInput (header : Header) (ancestors : List Header) (h : ancestors.length < 2 ^ 64) :
    ClientInput Unit where
  currentBlock := header
  ancestorHeaders := ancestors
  length_lt := h
  body := ()
  parentState := ⟨noState, [], by simp [noState]⟩
  bytecodes := []

def genesisHeader : Header := sampleHeader 0 (.ofNat 1) EMPTY_ROOT

def firstInput : ClientInput Unit := idleInput firstBlock.header [genesisHeader] (by decide)

def secondInput : ClientInput Unit :=
  idleInput secondBlock.header [firstBlock.header, genesisHeader] (by decide)

def linkedChain : Nat → Header
  | 0 => genesisHeader
  | 1 => firstBlock.header
  | _ => secondBlock.header

/-- The table of the linked blocks, the hash of no deposits and a hash for the genesis block. -/
def idleDigests : List (Bytes × B256) :=
  ([], ZERO_BYTES_HASH) :: (genesisHeader.encode, B256.zero) :: (sampleDigests ++ linkedLeafDigests)

def idleBlobLibs : BlobLibs :=
  knownLibs idleDigests (encodeBatchPayload linked) linkedCompressed linkedCommitment
    (.ofNat 0x4e1437a7eb0327521a86f2bb5b99eb5ca850845ad26ed3af397b4ed0430b10ad)

def idleLibs : Platform (ClientInput Unit) Nat where
  toBlobLibs := idleBlobLibs
  execute _ := .error ""
  signDigest := linkedPlatform.signDigest
  verifyDigest := linkedPlatform.verifyDigest
  l1ChainId := linkedPlatform.l1ChainId
  nitroVerifierAddress := linkedPlatform.nitroVerifierAddress

def idlePlatform : Platform (ClientInput Unit) Nat :=
  clientPlatform idleConfig (fun _ => "Block execution failed") idleLibs

def idleExecution (input : ClientInput Unit) : Execution (ClientInput Unit) :=
  ⟨input, input.currentBlock, ZERO_BYTES_HASH, ZERO_BYTES_HASH⟩

section Idle

variable {input : ClientInput Unit}
  (hok : (execute idleConfig idleLibs.keccak256 input).isOk = true)
  (hfields : deriveHeader input.currentBlock input.currentBlock.stateRoot
    input.currentBlock.logsBloom = input.currentBlock)

include hok hfields

theorem execute_idle :
    execute idleConfig idleLibs.keccak256 (idleExecution input).input =
      .ok ((idleExecution input).header, (idleExecution input).bridge) := by
  obtain ⟨result, hrun⟩ := exists_of_isOk hok
  obtain ⟨⟨_, _, _, hexecuted⟩, hheader⟩ := execute_eq_ok.mp hrun
  have hhashes : BRIDGE_INFO.calculateBridgeHashes idleLibs.keccak256 [] =
      some ⟨ZERO_BYTES_HASH, ZERO_BYTES_HASH⟩ := by decide +kernel
  have hresult := Option.some.inj (hexecuted.hashes.symm.trans hhashes)
  exact hrun.trans (congrArg _ (Prod.ext (hheader.trans hfields) hresult))

theorem idlePlatform_execute :
    idlePlatform.execute (idleExecution input).input =
      .ok ((idleExecution input).header, (idleExecution input).bridge) :=
  clientPlatform_execute.mpr (execute_idle hok hfields)

end Idle

/-- Two blocks are executed and requested as a batch. -/
theorem answer_pair {Input : Type} (p : Platform Input Nat) {x y : Execution Input}
    {blobs : List Bytes} {versionedHashes : List B256}
    (hx : p.execute x.input = .ok (x.header, x.bridge))
    (hy : p.execute y.input = .ok (y.header, y.bridge)) (hone : x.number = 1) (htwo : y.number = 2)
    (hverify : verifyBlobs p.toBlobLibs blobs [x.blockHash p.keccak256, y.blockHash p.keccak256] =
      .ok versionedHashes) :
    ∃ s response, Run p.Step (Enclave.new Input Nat)
        [.handshake (some 1), .executeBlock x.input, .executeBlock y.input, .startJob, .startJob,
          .runBlock 0, .runBlock 0, .submitBatch ⟨1, 2, [], blobs⟩] s ∧
      s.executions = [x, y] ∧ p.answer s = some (⟨1, 2, [], blobs⟩, .ok response) := by
  have hrun : ∀ z : Execution Input, p.execute z.input = .ok (z.header, z.bridge) → ∀ s,
      p.runBlock s z.input = { s with
        blockStore := s.blockStore.insert z.number (z.entry p.keccak256)
        results := s.results ++ [z.result p.keccak256]
        executions := s.executions ++ [z] } := by
    intro z hz s
    rw [Platform.runBlock, hz]
  obtain ⟨s, hsteps, hkey, hexecutions, hbatch⟩ : ∃ s, Run p.Step (Enclave.new Input Nat)
        [.handshake (some 1), .executeBlock x.input, .executeBlock y.input, .startJob, .startJob,
          .runBlock 0, .runBlock 0, .submitBatch ⟨1, 2, [], blobs⟩] s ∧
      s.identity = some 1 ∧ s.executions = [x, y] ∧
      s.batch = some (⟨1, 2, [], blobs⟩, (blockRange 1 2).map
        ((BlockStore.new.insert x.number (x.entry p.keccak256)).insert y.number
          (y.entry p.keccak256)).get) :=
    ⟨_, .cons rfl (.cons rfl (.cons rfl (.cons rfl (.cons rfl
      (.cons (congrArg some (hrun x hx _)) (.cons (congrArg some (hrun y hy _))
        (.cons rfl (.nil _)))))))), rfl, rfl, rfl⟩
  rw [hone, htwo, cached_both] at hbatch
  exact ⟨s, _, hsteps, hexecutions,
    answer_of_checkBatch hkey hbatch (checkBatch_both 1 hverify)⟩

theorem inputs_accepted :
    (execute idleConfig idleLibs.keccak256 firstInput).isOk = true ∧
      (execute idleConfig idleLibs.keccak256 secondInput).isOk = true := by
  decide +kernel

/-- The blobs of the linked blocks are accepted for their hashes. -/
theorem idle_verified : ∃ versionedHashes,
    verifyBlobs idleBlobLibs (blobsOf linkedCompressed)
      (linked.map fun block => idleBlobLibs.keccak256 block.headerRlp) = .ok versionedHashes := by
  have hbrotli : ∀ n, idleBlobLibs.decompress (linkedCompressed ++ List.replicate n 0x00) =
      .ok (encodeBatchPayload linked) := knownLibs_decompress
  have hkzg : ∀ blob ∈ blobsOf linkedCompressed, CanonicalBlob blob →
      ∃ commitment, idleBlobLibs.blobToKzgCommitment blob = .ok commitment :=
    knownLibs_commitment (by
      simp only [linkedCompressed, List.length_append, beBytes_length]
      decide)
  obtain ⟨versionedHashes, -, hverify⟩ := verifyBlobs_built linked_lists linked_size hbrotli hkzg
  exact ⟨versionedHashes, hverify⟩

/-- The batch of both blocks is signed. -/
theorem idle_answer : ∃ s response events,
    Run idlePlatform.Step (Enclave.new (ClientInput Unit) Nat) events s ∧
      s.executions = [idleExecution firstInput, idleExecution secondInput] ∧
      idlePlatform.answer s = some (⟨1, 2, [], blobsOf linkedCompressed⟩, .ok response) := by
  obtain ⟨versionedHashes, hverify⟩ := idle_verified
  obtain ⟨s, response, hrun, hexecutions, hanswer⟩ := answer_pair idlePlatform
    (idlePlatform_execute inputs_accepted.1 rfl) (idlePlatform_execute inputs_accepted.2 rfl) rfl
    rfl hverify
  exact ⟨s, response, _, hrun, hexecutions, hanswer⟩

theorem emptyWorld_heldBy (keccak : Bytes → B256) :
    emptyWorld.HeldBy keccak (fun _ => none) World.emptyTries :=
  World.heldBy_emptyTries fun _ => rfl

theorem injOn_idleDigests :
    Set.InjOn idleLibs.keccak256 {encoded | encoded ∈ idleDigests.map Prod.fst} :=
  injOn_tableHash (by decide +kernel) fun _ h => h

theorem linkedChain_mem : ∀ i < 3, (linkedChain i).encode ∈ idleDigests.map Prod.fst := by
  decide +kernel

theorem idleInput_admissible {header : Header} {ancestors : List Header}
    (h : ancestors.length < 2 ^ 64) (hnumber : header.number.toNat < 3)
    (htop : linkedChain header.number.toNat = header)
    (hancestors : ∀ ancestor ∈ ancestors, ∃ i < 2, linkedChain i = ancestor) :
    Admissible idleLibs.keccak256 (fun _ => none) linkedChain (idleInput header ancestors h) where
  written := ⟨⟨by simp [idleInput, noState], .null, rfl⟩, by simp [idleInput, noState]⟩
  code := by simp [idleInput]
  ancestry := by
    have hparents : ∀ i < 2, (linkedChain (i + 1)).parentHash =
        (linkedChain i).hashSlow idleLibs.keccak256 := by decide +kernel
    exact ⟨htop, fun i hi => hparents i (by change i < header.number.toNat at hi; omega)⟩
  headers := by
    refine injOn_idleDigests.mono ?_
    rintro encoded (⟨ancestor, hancestor, rfl⟩ | ⟨i, hi, rfl⟩)
    · obtain ⟨i, hi, rfl⟩ := hancestors ancestor hancestor
      exact linkedChain_mem i (by omega)
    · exact linkedChain_mem i (hi.trans hnumber)
  genesis ancestor hancestor := by
    have hgenesis : ∀ i < 2, (linkedChain i).hashSlow idleLibs.keccak256 ≠
        (linkedChain 0).parentHash := by decide +kernel
    obtain ⟨i, hi, rfl⟩ := hancestors ancestor hancestor
    exact hgenesis i hi

theorem empty_apart : HashesApart idleLibs.keccak256 noState World.emptyTries where
  empty := by decide +kernel
  injective := by
    refine Set.Subsingleton.injOn (fun a ha b hb => ?_) _
    have hsingle : ∀ encoded ∈ hashedNodes idleLibs.keccak256 noState World.emptyTries,
        encoded = [EMPTY_STRING_CODE] := by
      rintro encoded (rfl | hmem | ⟨address, hmem⟩)
      · rfl
      · simpa [noState, World.emptyTries, MptNode.encodings] using hmem
      · simpa [noState, World.emptyTries, EthereumState.storageTrie, MptNode.encodings] using hmem
    rw [hsingle a ha, hsingle b hb]
  nonzero address := by
    simp [World.emptyTries, EthereumState.storageTrie]
    decide +kernel

/-- A block that changes nothing leaves the empty world. -/
theorem emptyWorld_after : emptyWorld.after ⟨[], []⟩ = emptyWorld := rfl

theorem idle_assumed {xs : List (Execution (ClientInput Unit))}
    (hinput : ∀ x ∈ xs, x.input.parentState.toEthereumState = noState ∧
      Admissible idleLibs.keccak256 (fun _ => none) linkedChain x.input) :
    Assumed idleConfig idleLibs.keccak256 (fun _ => none) linkedChain emptyWorld xs := by
  induction xs with
  | nil => exact .nil emptyWorld
  | cons x rest ih =>
      obtain ⟨hstate, hadmissible⟩ := hinput x (.head _)
      refine .cons hadmissible (emptyWorld_heldBy _) ?_ (fun output _ => ?_) fun output _ => ?_
      · rw [hstate]
        exact empty_apart
      · exact trivial
      · rw [show idleConfig.hashedPostState output = ⟨[], []⟩ from rfl, emptyWorld_after]
        exact ih fun y hy => hinput y (.tail _ hy)

/-- Both blocks are the ones with the numbers of the batch. -/
theorem eq_of_numbers {xs : List (Execution (ClientInput Unit))}
    (hxs : ∀ x ∈ xs, x ∈ [idleExecution firstInput, idleExecution secondInput])
    (hnumbers : xs.map Execution.number = [1, 2]) :
    xs = [idleExecution firstInput, idleExecution secondInput] := by
  obtain ⟨x, y, rfl⟩ := List.length_eq_two.mp (by simpa using congrArg List.length hnumbers)
  have hx := hxs x (by simp)
  have hy := hxs y (by simp)
  simp only [List.mem_cons, List.not_mem_nil, or_false] at hx hy
  simp only [List.map_cons, List.map_nil, List.cons.injEq, and_true] at hnumbers
  rcases hx with rfl | rfl
  · rcases hy with rfl | rfl
    · exact absurd hnumbers.2 (by decide)
    · rfl
  · exact absurd hnumbers.1 (by decide)

theorem idle_inputs : ∀ x ∈ [idleExecution firstInput, idleExecution secondInput],
    x.input.parentState.toEthereumState = noState ∧
      Admissible idleLibs.keccak256 (fun _ => none) linkedChain x.input := by
  simp only [List.mem_cons, List.not_mem_nil, or_false, forall_eq_or_imp, forall_eq]
  have hgenesis : ∃ i < 2, linkedChain i = genesisHeader := ⟨0, by decide, rfl⟩
  have hfirst : ∃ i < 2, linkedChain i = firstBlock.header := ⟨1, by decide, rfl⟩
  refine ⟨⟨rfl, idleInput_admissible _ (by decide) rfl ?_⟩,
    ⟨rfl, idleInput_admissible _ (by decide) rfl ?_⟩⟩
  · exact List.forall_mem_singleton.mpr hgenesis
  · exact List.forall_mem_cons.mpr ⟨hfirst, List.forall_mem_singleton.mpr hgenesis⟩

theorem idle_headers :
    Set.InjOn idleLibs.keccak256
      (batchHeaders [idleExecution firstInput, idleExecution secondInput]) := by
  refine injOn_idleDigests.mono ?_
  have hheaders : ∀ x ∈ [idleExecution firstInput, idleExecution secondInput],
      ∀ header ∈ x.header :: x.input.ancestorHeaders,
        header.encode ∈ idleDigests.map Prod.fst := by decide +kernel
  rintro encoded ⟨x, hx, rfl | ⟨header, hheader, rfl⟩⟩
  · exact hheaders x hx _ (.head _)
  · exact hheaders x hx header (.tail _ hheader)

/-- The two linked blocks lead from the empty world to a world with the root of the second. -/
theorem signed_batch_replays_idle : ∃ (s : Enclave (ClientInput Unit) Nat)
    (response : SubmitBatchResponse) (final : World),
    idlePlatform.answer s = some (⟨1, 2, [], blobsOf linkedCompressed⟩, .ok response) ∧
      Replays idleConfig idleLibs.keccak256 (fun _ => none) linkedChain emptyWorld
        [idleExecution firstInput, idleExecution secondInput] final ∧
      final.IsStateRoot idleLibs.keccak256 secondBlock.header.stateRoot := by
  obtain ⟨s, response, events, hrun, hexecutions, hanswer⟩ := idle_answer
  obtain ⟨_, _, xs, -, -, hxs, hnumbers, -, hreplays⟩ := signed_batch_replays idleConfig _ idleLibs
    hrun (fun _ _ _ h => absurd h List.not_mem_nil) hanswer
  rw [hexecutions] at hxs
  obtain rfl := eq_of_numbers hxs (hnumbers.trans (by decide))
  have hroot : emptyWorld.IsStateRoot idleLibs.keccak256 genesisHeader.stateRoot :=
    (emptyWorld_heldBy _).isStateRoot
  have hlinked : [idleExecution firstInput, idleExecution secondInput].IsChain
      (Links idleLibs.keccak256) := by
    refine List.isChain_pair.mpr ?_
    unfold Links
    decide +kernel
  obtain ⟨final, hfinal, hlast⟩ := hreplays emptyWorld (fun _ => none) linkedChain
    (by
      rintro x hx parent hparent
      cases hx
      cases hparent
      exact hroot)
    hlinked idle_headers (idle_assumed idle_inputs)
  exact ⟨s, response, final, hanswer, hfinal, hlast _ rfl⟩

end Sample

end FluentStf.Executor
