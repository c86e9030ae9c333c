import FluentStf.Orchestrator.Db

/-! The batch accumulator: responses and batches in memory, mirrored in the database.
An operation returns the accumulator and the writes it waits for, in order. -/
namespace FluentStf.Orchestrator

open Nitro (EthExecutionResponse SubmitBatchResponse)

/-- What the process knows of the batches from their registration to their finalization. -/
structure BatchAccumulator where
  batches : Std.ExtTreeMap Nat PendingBatch
  responses : Std.ExtTreeMap Nat EthExecutionResponse
  /-- Batches that were submitted before they were registered. -/
  pendingBlobsAccepted : Std.ExtTreeSet Nat
  signatures : Std.ExtTreeMap Nat SubmitBatchResponse
  /-- Batches that wait for finalization. -/
  dispatched : Std.ExtTreeMap Nat DispatchedBatch

abbrev Update := BatchAccumulator × List Write

namespace BatchAccumulator

def new : BatchAccumulator := ⟨∅, ∅, ∅, ∅, ∅⟩

/-- The accumulator that a process starts with. Signatures of unknown batches are
dropped, in memory and in the database. -/
def withDb (db : Db) : Update :=
  let known := fun i => db.pendingBatches.contains i || db.dispatchedBatches.contains i
  let acc : BatchAccumulator :=
    { batches := db.pendingBatches
      responses := db.blockResponses
      pendingBlobsAccepted := db.pendingBlobsAccepted
      signatures := db.batchSignatures.filter fun i _ => known i
      dispatched := db.dispatchedBatches }
  (acc, (db.batchSignatures.keys.filter fun i => !known i).map .deleteBatchSignature)

variable (acc : BatchAccumulator) (batchIndex : Nat)

/-- Register a batch. One that is pending or dispatched is not registered again. -/
def setBatch (fromBlock toBlock : Nat) : Update :=
  if acc.dispatched.contains batchIndex || acc.batches.contains batchIndex then (acc, [])
  else
    -- a buffered `BatchSubmitted` is consumed
    let blobsAccepted := acc.pendingBlobsAccepted.contains batchIndex
    let batch : PendingBatch := ⟨fromBlock, toBlock, blobsAccepted⟩
    ({ acc with
        pendingBlobsAccepted := acc.pendingBlobsAccepted.erase batchIndex
        batches := acc.batches.insert batchIndex batch },
      (if blobsAccepted then [.deletePendingBlobsAccepted batchIndex] else []) ++
        [.saveBatch batchIndex batch])

def insertResponse (resp : EthExecutionResponse) : Update :=
  ({ acc with responses := acc.responses.insert resp.blockNumber.toNat resp },
    [.saveResponse resp])

def markBatchSubmitted : Update :=
  if acc.batches.contains batchIndex then
    ({ acc with batches := acc.batches.modify batchIndex ({ · with blobsAccepted := true }) },
      [.updateBlobsAccepted batchIndex])
  else
    ({ acc with pendingBlobsAccepted := acc.pendingBlobsAccepted.insert batchIndex },
      [.savePendingBlobsAccepted batchIndex])

def isBatchReady (batch : PendingBatch) : Bool :=
  batch.blobsAccepted &&
    (blocks batch.fromBlock batch.toBlock).all fun b => acc.responses.contains b

def firstReadyUnsigned : Option Nat :=
  (acc.batches.toList.find? fun row =>
    acc.isBatchReady row.2 && !acc.signatures.contains row.1).map Prod.fst

/-- The first pending batch with its signature. Later batches wait for the first. -/
def firstSequentialSigned : Option (Nat × Bytes) :=
  match acc.batches.toList.head? with
  | none => none
  | some (i, _) => acc.signatures[i]?.map fun resp => (i, resp.signature)

def purgeResponses (blocks : List Nat) : Update :=
  ({ acc with responses := eraseAll acc.responses blocks }, [.deleteResponsesBatch blocks])

/-- The signing task has stored the response before. -/
def cacheSignature (resp : SubmitBatchResponse) : BatchAccumulator :=
  { acc with signatures := acc.signatures.insert batchIndex resp }

def deleteBatchSignature : Update :=
  ({ acc with signatures := acc.signatures.erase batchIndex }, [.deleteBatchSignature batchIndex])

def getResponses (fromBlock toBlock : Nat) : List EthExecutionResponse :=
  (blocks fromBlock toBlock).filterMap fun b => acc.responses[b]?

/-- A pending batch becomes dispatched. For any other nothing happens. -/
def markDispatched (txHash : B256) (l1Block nonce maxFeePerGas maxPriorityFeePerGas : Nat) :
    Update :=
  match acc.batches[batchIndex]? with
  | none => (acc, [])
  | some batch =>
      ({ acc with
          batches := acc.batches.erase batchIndex
          dispatched := acc.dispatched.insert batchIndex
            ⟨batch.fromBlock, batch.toBlock, txHash, l1Block, some nonce, some maxFeePerGas,
              some maxPriorityFeePerGas⟩ },
        [.moveToDispatched batchIndex batch.fromBlock batch.toBlock txHash l1Block nonce
          maxFeePerGas maxPriorityFeePerGas])

/-- The batch was preconfirmed by a transaction that this process does not own. -/
def markDispatchedExternal (txHash : B256) (l1Block : Nat) : Update :=
  match acc.batches[batchIndex]? with
  | none => (acc, [])
  | some batch =>
      ({ acc with
          batches := acc.batches.erase batchIndex
          signatures := acc.signatures.erase batchIndex
          dispatched := acc.dispatched.insert batchIndex
            ⟨batch.fromBlock, batch.toBlock, txHash, l1Block, none, none, none⟩ },
        [.moveToDispatchedExternal batchIndex batch.fromBlock batch.toBlock txHash l1Block])

def recordRbfBump (txHash : B256) (maxFeePerGas maxPriorityFeePerGas : Nat) : Update :=
  ({ acc with
      dispatched := acc.dispatched.modify batchIndex fun row => { row with
        txHash := txHash
        maxFeePerGas := some maxFeePerGas
        maxPriorityFeePerGas := some maxPriorityFeePerGas } },
    [.updateRbfState batchIndex txHash maxFeePerGas maxPriorityFeePerGas])

def recordDispatchedL1Block (l1Block : Nat) : Update :=
  ({ acc with
      dispatched := acc.dispatched.modify batchIndex ({ · with l1Block := l1Block }) },
    [.updateDispatchedL1Block batchIndex l1Block])

/-- The batch is forgotten; its row is returned. -/
def finalizeDispatched : Update × Option DispatchedBatch :=
  match acc.dispatched[batchIndex]? with
  | none => ((acc, []), none)
  | some row =>
      (({ acc with
          dispatched := acc.dispatched.erase batchIndex
          responses := eraseAll acc.responses (blocks row.fromBlock row.toBlock)
          signatures := acc.signatures.erase batchIndex },
        [.finalizeDispatchedBatch batchIndex row.fromBlock row.toBlock]), some row)

/-- A dispatched batch becomes pending again, unless its transaction is external. The
flag tells whether it did. -/
def undispatch : Update × Bool :=
  match acc.dispatched[batchIndex]? with
  | none => ((acc, []), false)
  | some row =>
      if row.nonce.isNone then ((acc, []), false)
      else
        (({ acc with
            dispatched := acc.dispatched.erase batchIndex
            batches := acc.batches.insert batchIndex ⟨row.fromBlock, row.toBlock, true⟩ },
          [.undispatchBatch batchIndex row.fromBlock row.toBlock]), true)

/-- Batch index, transaction and L1 block of every dispatched batch. -/
def dispatchedSnapshot : List (Nat × B256 × Nat) :=
  acc.dispatched.toList.map fun row => (row.1, row.2.txHash, row.2.l1Block)

def dispatchedTxHash : Option B256 := acc.dispatched[batchIndex]?.map DispatchedBatch.txHash

def hasDispatched : Bool := !acc.dispatched.isEmpty

end BatchAccumulator

/-- The operations of the accumulator. `signed` is the caching of a response that the
signing task has stored. -/
inductive Operation where
  | setBatch (batchIndex fromBlock toBlock : Nat)
  | insertResponse (resp : EthExecutionResponse)
  | markBatchSubmitted (batchIndex : Nat)
  | purgeResponses (blocks : List Nat)
  | signed (batchIndex : Nat) (resp : SubmitBatchResponse)
  | deleteBatchSignature (batchIndex : Nat)
  | markDispatched (batchIndex : Nat) (txHash : B256)
      (l1Block nonce maxFeePerGas maxPriorityFeePerGas : Nat)
  | markDispatchedExternal (batchIndex : Nat) (txHash : B256) (l1Block : Nat)
  | recordRbfBump (batchIndex : Nat) (txHash : B256) (maxFeePerGas maxPriorityFeePerGas : Nat)
  | recordDispatchedL1Block (batchIndex l1Block : Nat)
  | finalizeDispatched (batchIndex : Nat)
  | undispatch (batchIndex : Nat)
deriving DecidableEq

namespace Operation

def apply (acc : BatchAccumulator) : Operation → Update
  | setBatch i first last => acc.setBatch i first last
  | insertResponse resp => acc.insertResponse resp
  | markBatchSubmitted i => acc.markBatchSubmitted i
  | purgeResponses blocks => acc.purgeResponses blocks
  | signed i resp => (acc.cacheSignature i resp, [.saveBatchSignature i resp])
  | deleteBatchSignature i => acc.deleteBatchSignature i
  | markDispatched i tx l1 nonce fee tip => acc.markDispatched i tx l1 nonce fee tip
  | markDispatchedExternal i tx l1 => acc.markDispatchedExternal i tx l1
  | recordRbfBump i tx fee tip => acc.recordRbfBump i tx fee tip
  | recordDispatchedL1Block i l1 => acc.recordDispatchedL1Block i l1
  | finalizeDispatched i => (acc.finalizeDispatched i).1
  | undispatch i => (acc.undispatch i).1

/-- The `u64` arguments of an operation. -/
def arguments : Operation → List Nat
  | setBatch i first last => [i, first, last]
  | insertResponse resp => [resp.blockNumber.toNat]
  | markBatchSubmitted i => [i]
  | purgeResponses blocks => blocks
  | signed i _ => [i]
  | deleteBatchSignature i => [i]
  | markDispatched i _ l1 nonce _ _ => [i, l1, nonce]
  | markDispatchedExternal i _ l1 => [i, l1]
  | recordRbfBump i _ _ _ => [i]
  | recordDispatchedL1Block i l1 => [i, l1]
  | finalizeDispatched i => [i]
  | undispatch i => [i]

/-- All arguments are SQLite integers. -/
def Fits (op : Operation) : Prop := ∀ n ∈ op.arguments, n < 2 ^ 63

instance (op : Operation) : Decidable op.Fits :=
  inferInstanceAs (Decidable (∀ n ∈ op.arguments, n < 2 ^ 63))

end Operation

/-- An accumulator with its database. -/
structure Store where
  accumulator : BatchAccumulator
  db : Db

namespace Store

def empty : Store := ⟨.new, .empty⟩

/-- An operation that has completed, with all its writes. -/
def perform (s : Store) (op : Operation) : Store :=
  let update := op.apply s.accumulator
  ⟨update.1, s.db.applyAll update.2⟩

/-- A new process on the same database. -/
def restart (s : Store) : Store :=
  let update := BatchAccumulator.withDb s.db
  ⟨update.1, s.db.applyAll update.2⟩

end Store

end FluentStf.Orchestrator
