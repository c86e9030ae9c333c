import FluentStf.Nitro.Batch
import FluentStf.Runs

/-! The enclave as one system: a main loop that takes requests one at a time and
worker threads that execute blocks beside it. The host chooses all requests and the
order of everything. -/
namespace FluentStf.Nitro

open Blob BlobBuilder

/-- One call of `run_block`: the input and what executing it gave. -/
structure Execution (Input : Type) where
  input : Input
  header : Header
  bridge : BridgeHashes
deriving DecidableEq

structure ExecutionResult where
  blockNumber : UInt64
  leaf : B256
  blockHash : B256
deriving DecidableEq

namespace Execution

variable {Input : Type} (keccak : Bytes → B256) (x : Execution Input)

def number : UInt64 := x.header.number

def blockHash : B256 := x.header.hashSlow keccak

def leaf : B256 :=
  computeLeaf keccak x.header.parentHash (x.blockHash keccak) x.bridge.withdrawalHash
    x.bridge.depositHash

def entry : BlockEntry := ⟨x.leaf keccak, x.blockHash keccak⟩

def result : ExecutionResult := ⟨x.number, x.leaf keccak, x.blockHash keccak⟩

end Execution

def ExecutionResult.payload (result : ExecutionResult) : Bytes :=
  executionSignPayload result.blockNumber result.leaf result.blockHash

def EXECUTE_WORKER_COUNT : Nat := 32

/-- The state of the enclave, with the history of its executions and of the messages
it signed. -/
structure Enclave (Input Key : Type) where
  identity : Option Key
  blockStore : BlockStore
  /-- Jobs that no worker has taken yet. -/
  queue : List Input
  /-- Jobs on worker threads, before their block is in the store. -/
  running : List Input
  /-- Executed and stored, but not signed yet. -/
  results : List ExecutionResult
  /-- The request that the main loop works on and what it read from the store for it. -/
  batch : Option (SubmitBatch × List (Option BlockEntry))
  executions : List (Execution Input)
  signed : List Bytes

def Enclave.new (Input Key : Type) : Enclave Input Key where
  identity := none
  blockStore := .new
  queue := []
  running := []
  results := []
  batch := none
  executions := []
  signed := []

/-- What can happen to the enclave. Connections and jobs run side by side. -/
inductive Event (Input Key : Type) where
  /-- A handshake, with the key that would be generated if any. -/
  | handshake (generated : Option Key)
  | executeBlock (input : Input)
  /-- A free worker takes the next job. -/
  | startJob
  /-- The block of a running job is executed and stored. -/
  | runBlock (job : Nat)
  | signExecution (job : Nat)
  /-- A request for a batch; the store is read. -/
  | submitBatch (request : SubmitBatch)
  | finishBatch

namespace Platform

variable {Input Key : Type} (p : Platform Input Key)

/-- `run_block` for a running job. -/
def runBlock (s : Enclave Input Key) (input : Input) : Enclave Input Key :=
  match p.execute input with
  | .error _ => s
  | .ok (header, bridge) =>
      let x : Execution Input := ⟨input, header, bridge⟩
      { s with
        blockStore := s.blockStore.insert x.number (x.entry p.keccak256)
        results := s.results ++ [x.result p.keccak256]
        executions := s.executions ++ [x] }

/-- The answer to the request in progress. -/
def answer (s : Enclave Input Key) :
    Option (SubmitBatch × Except SubmitBatchError SubmitBatchResponse) :=
  match s.identity, s.batch with
  | some key, some (request, cached) =>
      some (request, handleSubmitBatch p key request cached)
  | _, _ => none

/-- The messages signed for the request in progress. -/
def batchMessages (s : Enclave Input Key) : List Bytes :=
  match s.identity, s.batch with
  | some key, some (request, cached) => match checkBatch p key request cached with
    | .error _ => []
    | .ok (batchRoot, versionedHashes) =>
        [abiEncodeBatch p.l1ChainId p.nitroVerifierAddress batchRoot versionedHashes]
  | _, _ => []

/-- One step of the enclave, if it can be made now. While a batch is in progress the
main loop takes no other request. -/
def step (s : Enclave Input Key) : Event Input Key → Option (Enclave Input Key)
  | .handshake generated =>
      if s.batch.isSome then none
      else match s.identity with
        | some _ => some s
        | none => some { s with identity := generated }
  | .executeBlock input =>
      if s.batch.isSome then none
      else if s.identity.isSome ∧ s.queue.length < EXECUTE_WORKER_COUNT then
        some { s with queue := s.queue ++ [input] }
      else some s
  | .startJob => match s.queue with
      | [] => none
      | input :: rest =>
          if s.running.length + s.results.length < EXECUTE_WORKER_COUNT then
            some { s with queue := rest, running := s.running ++ [input] }
          else none
  | .runBlock job => match s.running[job]? with
      | none => none
      | some input => some (p.runBlock { s with running := s.running.eraseIdx job } input)
  | .signExecution job => match s.results[job]? with
      | none => none
      | some result => some { s with
          results := s.results.eraseIdx job
          signed := s.signed ++ [result.payload] }
  | .submitBatch request =>
      if s.batch.isSome then none
      else if s.identity.isSome then
        some { s with batch := some (request,
          (blockRange request.first request.last).map s.blockStore.get) }
      else some s
  | .finishBatch =>
      if s.batch.isSome then some { s with batch := none, signed := s.signed ++ p.batchMessages s }
      else none

def Step (s : Enclave Input Key) (event : Event Input Key) (t : Enclave Input Key) : Prop :=
  p.step s event = some t

end Platform

section Invariant

variable {Input Key : Type} {p : Platform Input Key} {s t : Enclave Input Key}

/-- The entry is what executing a block of that number gave. -/
def Produced (p : Platform Input Key) (executions : List (Execution Input)) (n : UInt64)
    (entry : BlockEntry) : Prop :=
  ∃ x ∈ executions, x.number = n ∧ x.entry p.keccak256 = entry

theorem Produced.append {executions : List (Execution Input)} {n : UInt64} {entry : BlockEntry}
    (h : Produced p executions n entry) (x : Execution Input) :
    Produced p (executions ++ [x]) n entry := by
  obtain ⟨y, hy, hn⟩ := h
  exact ⟨y, List.mem_append_left _ hy, hn⟩

/-- Everything the enclave holds comes from its own executions, and execution
responses and batches are the only messages it signs. -/
structure Sound (p : Platform Input Key) (s : Enclave Input Key) : Prop where
  executed : ∀ x ∈ s.executions, p.execute x.input = .ok (x.header, x.bridge)
  stored : ∀ n entry, s.blockStore.get n = some entry → Produced p s.executions n entry
  results : ∀ r ∈ s.results, Produced p s.executions r.blockNumber ⟨r.leaf, r.blockHash⟩
  cached : ∀ request cached, s.batch = some (request, cached) →
    ∃ get : UInt64 → Option BlockEntry,
      cached = (blockRange request.first request.last).map get ∧
      ∀ n entry, get n = some entry → Produced p s.executions n entry
  signed : ∀ message ∈ s.signed, 160 ≤ message.length ∨
    ∃ n leaf blockHash, message = executionSignPayload n leaf blockHash ∧
      Produced p s.executions n ⟨leaf, blockHash⟩

theorem Sound.new : Sound p (Enclave.new Input Key) where
  executed := by simp [Enclave.new]
  stored n entry h := by simp [Enclave.new, BlockStore.new, BlockStore.get] at h
  results := by simp [Enclave.new]
  cached := by simp [Enclave.new]
  signed := by simp [Enclave.new]

theorem batchMessages_length {message : Bytes} (h : message ∈ p.batchMessages s) :
    160 ≤ message.length := by
  unfold Platform.batchMessages at h
  split at h
  · split at h
    · simp at h
    · rw [List.mem_singleton.mp h]
      exact abiEncodeBatch_length _ _ _ _
  · simp at h

theorem Sound.runBlock (h : Sound p s) (input : Input) : Sound p (p.runBlock s input) := by
  unfold Platform.runBlock
  split
  · exact h
  · next header bridge hexecute =>
      refine ⟨?_, ?_, ?_, ?_, ?_⟩
      · intro x hx
        rcases List.mem_append.mp hx with hx | hx
        · exact h.executed x hx
        · rw [List.mem_singleton.mp hx]
          exact hexecute
      · intro n entry hget
        rcases BlockStore.get_insert hget with ⟨rfl, rfl⟩ | hget
        · exact ⟨_, by simp, rfl, rfl⟩
        · exact (h.stored n entry hget).append _
      · intro r hr
        rcases List.mem_append.mp hr with hr | hr
        · exact (h.results r hr).append _
        · rw [List.mem_singleton.mp hr]
          exact ⟨_, by simp, rfl, rfl⟩
      · intro request cached hbatch
        obtain ⟨get, hcached, hget⟩ := h.cached request cached hbatch
        exact ⟨get, hcached, fun n entry hn => (hget n entry hn).append _⟩
      · intro message hmessage
        rcases h.signed message hmessage with hlength | ⟨n, leaf, blockHash, hpayload, hproduced⟩
        · exact .inl hlength
        · exact .inr ⟨n, leaf, blockHash, hpayload, hproduced.append _⟩

theorem Sound.step (h : Sound p s) {event : Event Input Key} (hstep : p.Step s event t) :
    Sound p t := by
  unfold Platform.Step Platform.step at hstep
  cases event with
  | handshake generated =>
      dsimp only at hstep
      split at hstep
      · cases hstep
      · split at hstep <;> cases hstep <;> exact ⟨h.1, h.2, h.3, h.4, h.5⟩
  | executeBlock input =>
      dsimp only at hstep
      split at hstep
      · cases hstep
      · split at hstep <;> cases hstep <;> exact ⟨h.1, h.2, h.3, h.4, h.5⟩
  | startJob =>
      dsimp only at hstep
      split at hstep
      · cases hstep
      · split at hstep
        · cases hstep
          exact ⟨h.1, h.2, h.3, h.4, h.5⟩
        · cases hstep
  | runBlock job =>
      dsimp only at hstep
      split at hstep
      · cases hstep
      · cases hstep
        refine Sound.runBlock ?_ _
        exact ⟨h.1, h.2, h.3, h.4, h.5⟩
  | signExecution job =>
      dsimp only at hstep
      split at hstep
      · cases hstep
      · next result hresult =>
          cases hstep
          refine ⟨h.1, h.2, fun r hr => h.3 r (List.mem_of_mem_eraseIdx hr), h.4, ?_⟩
          intro message hmessage
          rcases List.mem_append.mp hmessage with hmessage | hmessage
          · exact h.5 message hmessage
          · exact .inr ⟨_, _, _, List.mem_singleton.mp hmessage,
              h.3 result (List.mem_of_getElem? hresult)⟩
  | submitBatch request =>
      dsimp only at hstep
      split at hstep
      · cases hstep
      · split at hstep
        · cases hstep
          refine ⟨h.1, h.2, h.3, ?_, h.5⟩
          intro request' cached hbatch
          cases hbatch
          exact ⟨s.blockStore.get, rfl, h.2⟩
        · cases hstep
          exact h
  | finishBatch =>
      dsimp only at hstep
      split at hstep
      · cases hstep
        refine ⟨h.1, h.2, h.3, by simp, ?_⟩
        intro message hmessage
        rcases List.mem_append.mp hmessage with hmessage | hmessage
        · exact h.5 message hmessage
        · exact .inl (batchMessages_length hmessage)
      · cases hstep

theorem Sound.run {events : List (Event Input Key)}
    (h : Run p.Step (Enclave.new Input Key) events s) : Sound p s :=
  h.invariant (fun hstep hs => hs.step hstep) Sound.new

end Invariant

section SignedBatch

variable {Input Key : Type} {p : Platform Input Key} {s : Enclave Input Key}

/-- A response of the request verifies only if the enclave signed its payload. -/
def Unforgeable (p : Platform Input Key) (s : Enclave Input Key) (request : SubmitBatch) : Prop :=
  ∀ key, s.identity = some key → ∀ response ∈ request.responses,
    verifyResponse p key response →
      executionSignPayload response.blockNumber response.leaf response.blockHash ∈ s.signed

variable {request : SubmitBatch}

/-- Both sources of entries only have what was executed: an execution payload is too
short to be a batch, so it was signed for an execution. -/
theorem produced_of_chooseEntry {key : Key} {map : Std.ExtTreeMap UInt64 EthExecutionResponse}
    {get : UInt64 → Option BlockEntry} (hsound : Sound p s) (hkey : s.identity = some key)
    (hunforgeable : Unforgeable p s request)
    (hmap : responseMap ∅ request.responses = .ok map)
    (hget : ∀ n entry, get n = some entry → Produced p s.executions n entry)
    {n : UInt64} {entry : BlockEntry} (h : chooseEntry p key map n (get n) = some entry) :
    Produced p s.executions n entry := by
  unfold chooseEntry at h
  split at h
  · next response hresponse =>
      split at h
      · next hverify =>
          cases h
          rcases getElem?_responseMap hmap hresponse with hempty | ⟨hmem, rfl⟩
          · simp at hempty
          · have hsigned := hunforgeable key hkey response hmem hverify
            rcases hsound.signed _ hsigned with hlength | ⟨n, leaf, blockHash, hpayload, hproduced⟩
            · rw [executionSignPayload_length] at hlength
              omega
            · obtain ⟨rfl, rfl, rfl⟩ := executionSignPayload_inj hpayload
              exact hproduced
      · cases h
  · exact hget n entry h

theorem exists_map_eq {α β γ : Type*} {number : β → α} {entry : β → γ} {choose : α → γ}
    {as : List α} {bs : List β} (h : ∀ a ∈ as, ∃ b ∈ bs, number b = a ∧ choose a = entry b) :
    ∃ cs : List β, (∀ c ∈ cs, c ∈ bs) ∧ cs.map number = as ∧ as.map choose = cs.map entry := by
  induction as with
  | nil => exact ⟨[], by simp⟩
  | cons a as ih =>
      obtain ⟨b, hb, rfl, hchoose⟩ := h a (by simp)
      obtain ⟨cs, hcs, rfl, hentries⟩ := ih fun a' ha' => h a' (.tail _ ha')
      refine ⟨b :: cs, ?_, rfl, ?_⟩
      · simpa using ⟨hb, hcs⟩
      · rw [List.map_cons, List.map_cons, hchoose, hentries]

/-- The executions behind the entries of a batch, one for each block. -/
theorem executions_of_checkBatch {key : Key} {cached : List (Option BlockEntry)} {batchRoot : B256}
    {versionedHashes : List B256} (hsound : Sound p s) (hkey : s.identity = some key)
    (hbatch : s.batch = some (request, cached)) (hunforgeable : Unforgeable p s request)
    (h : checkBatch p key request cached = .ok (batchRoot, versionedHashes)) :
    request.first ≤ request.last ∧ ∃ xs : List (Execution Input), (∀ x ∈ xs, x ∈ s.executions) ∧
      xs.map Execution.number = blockRange request.first request.last ∧
      calculateMerkleRoot p.keccak256 (xs.map fun x => x.leaf p.keccak256) = some batchRoot ∧
      verifyBlobs p.toBlobLibs request.blobs (xs.map fun x => x.blockHash p.keccak256) =
        .ok versionedHashes := by
  obtain ⟨get, rfl, hget⟩ := hsound.cached request cached hbatch
  obtain ⟨hrange, map, entries, hmap, hchosen, hroot, hverify⟩ := checkBatch_ok h
  have hproduced : ∀ n ∈ blockRange request.first request.last, ∃ x ∈ s.executions,
      x.number = n ∧ chooseEntry p key map n (get n) = some (x.entry p.keccak256) := by
    intro n hn
    have hmem := List.mem_map_of_mem (f := fun n => chooseEntry p key map n (get n)) hn
    rw [hchosen] at hmem
    obtain ⟨entry, _, hentry⟩ := List.mem_map.mp hmem
    obtain ⟨x, hx, hnumber, rfl⟩ :=
      produced_of_chooseEntry hsound hkey hunforgeable hmap hget hentry.symm
    exact ⟨x, hx, hnumber, hentry.symm⟩
  obtain ⟨xs, hxs, hnumbers, hentries⟩ := exists_map_eq hproduced
  have hsome : entries.map some = (xs.map fun x => x.entry p.keccak256).map some := by
    rw [← hchosen, hentries, List.map_map]
    rfl
  obtain rfl := List.map_injective_iff.mpr (Option.some_injective _) hsome
  rw [List.map_map] at hroot hverify
  exact ⟨hrange, xs, hxs, hnumbers, hroot, hverify⟩

theorem answer_ok {response : SubmitBatchResponse} (h : p.answer s = some (request, .ok response)) :
    ∃ key cached batchRoot versionedHashes, s.identity = some key ∧
      s.batch = some (request, cached) ∧
      checkBatch p key request cached = .ok (batchRoot, versionedHashes) ∧
      response = signBatch p key batchRoot versionedHashes := by
  unfold Platform.answer at h
  split at h
  · next key request' cached hkey hbatch =>
      obtain ⟨rfl, hresponse⟩ := Prod.mk.inj (Option.some.inj h)
      cases hcheck : checkBatch p key request' cached with
      | error e => simp [handleSubmitBatch, hcheck, Except.map] at hresponse
      | ok signed =>
          simp only [handleSubmitBatch, hcheck, Except.map, Except.ok.injEq] at hresponse
          exact ⟨key, cached, signed.1, signed.2, hkey, hbatch, hcheck, hresponse.symm⟩
  · cases h

theorem answer_of_checkBatch {key : Key} {cached : List (Option BlockEntry)} {batchRoot : B256}
    {versionedHashes : List B256} (hkey : s.identity = some key)
    (hbatch : s.batch = some (request, cached))
    (h : checkBatch p key request cached = .ok (batchRoot, versionedHashes)) :
    p.answer s = some (request, .ok (signBatch p key batchRoot versionedHashes)) := by
  simp only [Platform.answer, hkey, hbatch, handleSubmitBatch, h, Except.map]

/-- In every run, a signed batch is for blocks that the enclave executed, one for
each number of the range; its root is that of their leaves, the blobs have their
headers in this order, and the blob hashes are those of these blobs. -/
theorem signed_batch_executed {events : List (Event Input Key)} {request : SubmitBatch}
    {response : SubmitBatchResponse} (hrun : Run p.Step (Enclave.new Input Key) events s)
    (hunforgeable : Unforgeable p s request)
    (hanswer : p.answer s = some (request, .ok response)) :
    request.first ≤ request.last ∧ ∃ (key : Key) (batchRoot : B256) (xs : List (Execution Input)),
      s.identity = some key ∧ response = signBatch p key batchRoot response.versionedHashes ∧
      (∀ x ∈ xs, x ∈ s.executions ∧ p.execute x.input = .ok (x.header, x.bridge)) ∧
      xs.map Execution.number = blockRange request.first request.last ∧
      calculateMerkleRoot p.keccak256 (xs.map fun x => x.leaf p.keccak256) = some batchRoot ∧
      (∃ payload entries, decodeBlobPayload p.decompress request.blobs = .ok payload ∧
        HasEntries payload entries ∧
        entries.length = request.last.toNat - request.first.toNat + 1 ∧
        entries.map (fun entry => p.keccak256 entry.header) =
          xs.map fun x => x.blockHash p.keccak256) ∧
      computeVersionedHashes p.toBlobLibs request.blobs = .ok response.versionedHashes := by
  obtain ⟨key, cached, batchRoot, versionedHashes, hkey, hbatch, hcheck, rfl⟩ := answer_ok hanswer
  have hsound := Sound.run hrun
  obtain ⟨hrange, xs, hxs, hnumbers, hroot, hverify⟩ :=
    executions_of_checkBatch hsound hkey hbatch hunforgeable hcheck
  obtain ⟨payload, entries, hdecode, hentries, hhashes⟩ := entries_of_verifyBlobs hverify
  obtain ⟨_, _, _, hversioned⟩ := verifyBlobs_ok_iff.mp hverify
  refine ⟨hrange, key, batchRoot, xs, hkey, rfl,
    fun x hx => ⟨hxs x hx, hsound.executed x (hxs x hx)⟩,
    hnumbers, hroot, ⟨payload, entries, hdecode, hentries, ?_, hhashes⟩, hversioned⟩
  have hlength := congrArg List.length hhashes
  have hcount := congrArg List.length hnumbers
  have hle : request.first.toNat ≤ request.last.toNat := UInt64.le_iff_toNat_le.mp hrange
  simp only [List.length_map, blockRange, List.length_range'] at hlength hcount
  omega

end SignedBatch

section Sample

/-- The hash of no bytes, for blocks without bridge events. -/
def ZERO_BYTES_HASH : B256 :=
  .ofNat 0xc5d2460186f7233c927e7db2dcc703c0e500b653ca82273b7bfad8045d85a470

/-- What executing a block without bridge events gives. -/
def executionOf (block : ExecutedBlock) : Execution ExecutedBlock :=
  ⟨block, block.header, ZERO_BYTES_HASH, ZERO_BYTES_HASH⟩

def verifierAddress : FixedBytes 20 :=
  ⟨beBytes 20 0xfdb04b67ecd8352ba3885f66fffddf1f5f25292f, by simp⟩

/-- Libraries that are known on the inputs of one batch, for the key with value one. -/
def knownPlatform (lib : BlobLibs) (sha256 : List (Bytes × B256)) (digest : B256)
    (signature : FixedBytes 64 × UInt8) : Platform ExecutedBlock Nat where
  keccak256 := lib.keccak256
  sha256 := tableHash sha256
  decompress := lib.decompress
  blobToKzgCommitment := lib.blobToKzgCommitment
  execute block := .ok (block.header, ⟨ZERO_BYTES_HASH, ZERO_BYTES_HASH⟩)
  signDigest key message := if key = 1 ∧ message = digest then signature else (.zero 64, 0)
  verifyDigest key message candidate :=
    decide (key = 1 ∧ message = digest ∧ candidate = signature.1)
  l1ChainId := 1
  nitroVerifierAddress := verifierAddress

/-- Two blocks are executed beside each other and then requested as a batch. -/
def executeBoth (first second : ExecutedBlock) (blobs : List Bytes) :
    List (Event ExecutedBlock Nat) :=
  [.handshake (some 1), .executeBlock first, .executeBlock second, .startJob, .startJob,
    .runBlock 0, .runBlock 0, .submitBatch ⟨1, 2, [], blobs⟩]

variable {lib : BlobLibs} {sha256 : List (Bytes × B256)} {digest : B256}
  {signature : FixedBytes 64 × UInt8} {first second : ExecutedBlock} {blobs : List Bytes}

theorem run_executeBoth (lib : BlobLibs) (sha256 : List (Bytes × B256)) (digest : B256)
    (signature : FixedBytes 64 × UInt8) (first second : ExecutedBlock) (blobs : List Bytes) :
    ∃ s, Run (knownPlatform lib sha256 digest signature).Step (Enclave.new ExecutedBlock Nat)
        (executeBoth first second blobs) s ∧ s.identity = some 1 ∧
      s.executions = [executionOf first, executionOf second] ∧
      s.batch = some (⟨1, 2, [], blobs⟩, (blockRange 1 2).map
        ((BlockStore.new.insert first.header.number
          ((executionOf first).entry lib.keccak256)).insert
          second.header.number ((executionOf second).entry lib.keccak256)).get) := by
  refine ⟨_, .cons rfl (.cons rfl (.cons rfl (.cons rfl (.cons rfl (.cons rfl (.cons rfl
    (.cons rfl (.nil _)))))))), rfl, rfl, rfl⟩

/-- Both blocks are read back from the store. -/
theorem cached_both (first second : BlockEntry) :
    (blockRange 1 2).map ((BlockStore.new.insert 1 first).insert 2 second).get =
      [some first, some second] := by
  have hsize := Std.ExtTreeMap.size_insert_le (t := BlockStore.new.entries) (k := (1 : UInt64))
    (v := first)
  have hrange : blockRange 1 2 = [1, 2] := by decide
  have hone : BlockStore.new.insert 1 first = ⟨BlockStore.new.entries.insert 1 first⟩ :=
    BlockStore.insert_of_lt (by decide) 1 first
  have hlt : (⟨BlockStore.new.entries.insert 1 first⟩ : BlockStore).entries.size < MAX_ENTRIES :=
    Nat.lt_of_le_of_lt hsize (by decide)
  rw [hone, BlockStore.insert_of_lt hlt, hrange]
  simp only [List.map_cons, List.map_nil, BlockStore.get, Std.ExtTreeMap.getElem?_insert]
  rfl

theorem calculateMerkleRoot_pair (keccak : Bytes → B256) (a b : B256) :
    calculateMerkleRoot keccak [a, b] = some (keccakPair keccak a b) := by
  simp [calculateMerkleRoot, nextLayer, reduceLayers]

theorem checkBatch_both {Input Key : Type} {p : Platform Input Key} (key : Key)
    {x y : Execution Input} {versionedHashes : List B256}
    (hverify : verifyBlobs p.toBlobLibs blobs [x.blockHash p.keccak256, y.blockHash p.keccak256] =
      .ok versionedHashes) :
    checkBatch p key ⟨1, 2, [], blobs⟩
      [some (x.entry p.keccak256), some (y.entry p.keccak256)] =
        .ok (keccakPair p.keccak256 (x.leaf p.keccak256) (y.leaf p.keccak256),
          versionedHashes) := by
  have hrange : blockRange 1 2 = [1, 2] := by decide
  simp [checkBatch, hrange, responseMap, chooseEntry, Execution.entry, calculateMerkleRoot_pair,
    hverify]

/-- The batch of both blocks is signed if its blobs are accepted for them. -/
theorem answer_executeBoth {versionedHashes : List B256} (lib : BlobLibs)
    (sha256 : List (Bytes × B256)) (digest : B256) (signature : FixedBytes 64 × UInt8)
    (hfirst : first.header.number = 1) (hsecond : second.header.number = 2)
    (hverify : verifyBlobs (knownPlatform lib sha256 digest signature).toBlobLibs blobs
      [first.header.hashSlow lib.keccak256, second.header.hashSlow lib.keccak256] =
        .ok versionedHashes) :
    ∃ s, Run (knownPlatform lib sha256 digest signature).Step
        (Enclave.new ExecutedBlock Nat) (executeBoth first second blobs) s ∧
      s.executions = [executionOf first, executionOf second] ∧
      (knownPlatform lib sha256 digest signature).answer s = some (⟨1, 2, [], blobs⟩,
        .ok (signBatch (knownPlatform lib sha256 digest signature) 1
          (keccakPair lib.keccak256 ((executionOf first).leaf lib.keccak256)
            ((executionOf second).leaf lib.keccak256)) versionedHashes)) := by
  obtain ⟨s, hrun, hkey, hexecutions, hbatch⟩ :=
    run_executeBoth lib sha256 digest signature first second blobs
  rw [hfirst, hsecond, cached_both] at hbatch
  have hcheck := checkBatch_both (p := knownPlatform lib sha256 digest signature) 1
    (x := executionOf first) (y := executionOf second) hverify
  exact ⟨s, hrun, hexecutions, answer_of_checkBatch hkey hbatch hcheck⟩

/-- Blobs are accepted for the blocks that the host built them from. -/
theorem verifyBlobs_known {blocks : List FetchedBlock} {compressed : Bytes}
    (hlists : ∀ block ∈ blocks, IsList block.headerRlp)
    (hsize : (encodeBatchPayload blocks).length < 2 ^ 64)
    (hbrotli : ∀ n, lib.decompress (compressed ++ List.replicate n 0x00) =
      .ok (encodeBatchPayload blocks))
    (hkzg : ∀ blob ∈ blobsOf compressed, CanonicalBlob blob →
      ∃ commitment, lib.blobToKzgCommitment blob = .ok commitment) :
    ∃ versionedHashes, verifyBlobs (knownPlatform lib sha256 digest signature).toBlobLibs
      (blobsOf compressed) (blocks.map fun block => lib.keccak256 block.headerRlp) =
        .ok versionedHashes := by
  have hbrotli' : ∀ n, (knownPlatform lib sha256 digest signature).decompress
      (compressed ++ List.replicate n 0x00) = .ok (encodeBatchPayload blocks) := hbrotli
  obtain ⟨versionedHashes, _, hverify⟩ := verifyBlobs_built hlists hsize hbrotli' hkzg
  exact ⟨versionedHashes, hverify⟩

/-- Keccak-256 of the leaves of the two linked blocks and of their pair. -/
def linkedLeafDigests : List (Bytes × B256) :=
  [(B256.zero.bytes ++ firstHash.bytes ++ ZERO_BYTES_HASH.bytes ++ ZERO_BYTES_HASH.bytes,
      .ofNat 0x2ded23097b1bf3b917b4df89ffbc5b8f4444f359d6d299592cdf5031cec40703),
    (firstHash.bytes ++ secondHash.bytes ++ ZERO_BYTES_HASH.bytes ++ ZERO_BYTES_HASH.bytes,
      .ofNat 0xfe6998693e5c4ce3cd7bf109489f967c18fa6abf4e6d1e39d22724ea702e019b),
    (beBytes 32 0x2ded23097b1bf3b917b4df89ffbc5b8f4444f359d6d299592cdf5031cec40703 ++
        beBytes 32 0xfe6998693e5c4ce3cd7bf109489f967c18fa6abf4e6d1e39d22724ea702e019b,
      .ofNat 0x4174d57a0e8b329055cdf2788c0162680fb5e59a39c246baf9a16c602d11500c)]

def linkedBatchLibs : BlobLibs :=
  knownLibs (sampleDigests ++ linkedLeafDigests) (encodeBatchPayload linked) linkedCompressed
    linkedCommitment (.ofNat 0x4e1437a7eb0327521a86f2bb5b99eb5ca850845ad26ed3af397b4ed0430b10ad)

/-- The batch has this digest and, with the key of value one, this signature. -/
def linkedBatchDigest : B256 :=
  .ofNat 0xb00e38f36dde9fe6c85b8e3ec800baa70c651396501d8a08590e7a274ae82d59

def linkedSignature : FixedBytes 64 × UInt8 :=
  (⟨beBytes 32 0xfc71075dfde4fe289585b61de3fbd1d0a10907b96582eaf0ca81a23071af931e ++
      beBytes 32 0x12cf0d4e930675d6c310366f7495fd79aff8678e7088dea0898fde306e816cca, by simp⟩, 0)

def linkedShaDigests : List (Bytes × B256) :=
  [(linkedCommitment,
      .ofNat 0x4e1437a7eb0327521a86f2bb5b99eb5ca850845ad26ed3af397b4ed0430b10ad),
    (abiEncodeBatch 1 verifierAddress
        (.ofNat 0x4174d57a0e8b329055cdf2788c0162680fb5e59a39c246baf9a16c602d11500c)
        [.ofNat 0x011437a7eb0327521a86f2bb5b99eb5ca850845ad26ed3af397b4ed0430b10ad],
      linkedBatchDigest)]

/-- Libraries and signing key on the inputs of the batch with both linked blocks. -/
def linkedPlatform : Platform ExecutedBlock Nat :=
  knownPlatform linkedBatchLibs linkedShaDigests linkedBatchDigest linkedSignature

/-- The batch of the two linked blocks is signed. -/
theorem linked_answer : ∃ s response, Run linkedPlatform.Step (Enclave.new ExecutedBlock Nat)
      (executeBoth firstBlock secondBlock (blobsOf linkedCompressed)) s ∧
    s.executions = [executionOf firstBlock, executionOf secondBlock] ∧
    linkedPlatform.answer s = some (⟨1, 2, [], blobsOf linkedCompressed⟩, .ok response) := by
  have hbrotli : ∀ n, linkedBatchLibs.decompress (linkedCompressed ++ List.replicate n 0x00) =
      .ok (encodeBatchPayload linked) := knownLibs_decompress
  obtain ⟨versionedHashes, hverify⟩ := verifyBlobs_known linked_lists linked_size hbrotli
    (knownLibs_commitment (by
      simp only [linkedCompressed, List.length_append, beBytes_length]
      decide))
  obtain ⟨s, hrun, hexecutions, hanswer⟩ := answer_executeBoth linkedBatchLibs linkedShaDigests
    linkedBatchDigest linkedSignature rfl rfl hverify
  exact ⟨s, _, hrun, hexecutions, hanswer⟩

/-- Both blocks were executed and both headers are found in the blob. -/
theorem signed_batch_executed_linked : ∃ (s : Enclave ExecutedBlock Nat)
    (response : SubmitBatchResponse) (xs : List (Execution ExecutedBlock)),
    linkedPlatform.answer s = some (⟨1, 2, [], blobsOf linkedCompressed⟩, .ok response) ∧
      (∀ x ∈ xs, x ∈ s.executions) ∧ xs.map Execution.number = [1, 2] := by
  obtain ⟨s, response, hrun, _, hanswer⟩ := linked_answer
  obtain ⟨_, _, _, xs, _, _, hxs, hnumbers, _⟩ :=
    signed_batch_executed hrun (fun _ _ _ h => absurd h List.not_mem_nil) hanswer
  exact ⟨s, response, xs, hanswer, fun x hx => (hxs x hx).1, hnumbers.trans (by decide)⟩

end Sample

end FluentStf.Nitro
