import Mathlib.Data.List.Basic
import FluentStf.Nitro.Batch

/-! The SQLite database of the orchestrator, one map per table and one field per row of
`meta`. Columns that hold an encoding (bincode blobs, the bytes of a transaction hash,
decimal text) hold the encoded value itself here. Block numbers, batch indexes and
nonces are natural numbers in the modules of the orchestrator, where the source has `u64`:
but for the witness store, nothing wraps around near `2 ^ 64`. A statement that binds one as
an SQLite integer fails from `2 ^ 63` on. -/
namespace FluentStf.Orchestrator

open Std

open Nitro (EthExecutionResponse SubmitBatchResponse)

/-- A batch that waits for its responses and its signature. Its index is its key. -/
structure PendingBatch where
  fromBlock : Nat
  toBlock : Nat
  blobsAccepted : Bool
deriving DecidableEq

/-- A batch whose `preconfirmBatch` transaction was sent. Rows without a nonce belong to
transactions of somebody else. -/
structure DispatchedBatch where
  fromBlock : Nat
  toBlock : Nat
  txHash : B256
  l1Block : Nat
  nonce : Option Nat
  maxFeePerGas : Option Nat
  maxPriorityFeePerGas : Option Nat
deriving DecidableEq

/-- The tables by their primary keys, and the rows of `meta`, which may be missing. -/
structure Db where
  blockResponses : ExtTreeMap Nat EthExecutionResponse
  pendingBatches : ExtTreeMap Nat PendingBatch
  pendingBlobsAccepted : ExtTreeSet Nat
  batchSignatures : ExtTreeMap Nat SubmitBatchResponse
  dispatchedBatches : ExtTreeMap Nat DispatchedBatch
  checkpoint : Option Nat
  l1Checkpoint : Option Nat
  startBatchId : Option Nat
  lastBatchEnd : Option Nat

/-- The blocks `from..=to`. -/
def blocks (fromBlock toBlock : Nat) : List Nat :=
  List.range' fromBlock (toBlock + 1 - fromBlock)

@[simp] theorem mem_blocks {fromBlock toBlock n : Nat} :
    n ∈ blocks fromBlock toBlock ↔ fromBlock ≤ n ∧ n ≤ toBlock := by
  simp only [blocks, List.mem_range'_1]
  omega

section Tables

variable {α : Type}

/-- A table after its rows with the given keys were removed one by one. -/
def eraseAll (table : ExtTreeMap Nat α) (keys : List Nat) : ExtTreeMap Nat α :=
  keys.foldl (fun table key => table.erase key) table

theorem getElem?_eraseAll (table : ExtTreeMap Nat α) (keys : List Nat) (n : Nat) :
    (eraseAll table keys)[n]? = if n ∈ keys then none else table[n]? := by
  induction keys generalizing table with
  | nil => simp [eraseAll]
  | cons key keys ih =>
      rw [eraseAll, List.foldl_cons, ← eraseAll, ih, ExtTreeMap.getElem?_erase]
      by_cases hkeys : n ∈ keys
      · simp [hkeys]
      · by_cases hkey : n = key
        · simp [hkey]
        · simp [hkeys, hkey, Ne.symm hkey]

theorem getElem?_filter_key (table : ExtTreeMap Nat α) (p : Nat → Bool) (n : Nat) :
    (table.filter fun n _ => p n)[n]? = if p n then table[n]? else none := by
  rw [ExtTreeMap.getElem?_filter']
  cases table[n]? <;> by_cases hp : p n <;> simp [hp]

/-- Every row of the table has the property. -/
def All (P : Nat → α → Prop) (table : ExtTreeMap Nat α) : Prop :=
  ∀ i row, table[i]? = some row → P i row

variable {P : Nat → α → Prop} {table : ExtTreeMap Nat α}

theorem All.empty : All P (∅ : ExtTreeMap Nat α) := by
  intro i row h
  simp at h

theorem All.insert (h : All P table) {key : Nat} {value : α} (hvalue : P key value) :
    All P (table.insert key value) := by
  intro i row hrow
  rw [ExtTreeMap.getElem?_insert] at hrow
  split at hrow
  · next hkey =>
      cases LawfulEqCmp.eq_of_compare hkey
      cases hrow
      exact hvalue
  · exact h i row hrow

theorem All.erase (h : All P table) (key : Nat) : All P (table.erase key) := by
  intro i row hrow
  rw [ExtTreeMap.getElem?_erase] at hrow
  split at hrow
  · cases hrow
  · exact h i row hrow

theorem All.modify (h : All P table) (key : Nat) {f : α → α}
    (hf : ∀ i row, P i row → P i (f row)) : All P (table.modify key f) := by
  intro i row hrow
  rw [ExtTreeMap.getElem?_modify] at hrow
  split at hrow
  · next hkey =>
      cases LawfulEqCmp.eq_of_compare hkey
      obtain ⟨old, hold, rfl⟩ := Option.map_eq_some_iff.mp hrow
      exact hf key old (h key old hold)
  · exact h i row hrow

end Tables

namespace Db

/-- What `Db::open` makes of a missing file. -/
def empty : Db where
  blockResponses := ∅
  pendingBatches := ∅
  pendingBlobsAccepted := ∅
  batchSignatures := ∅
  dispatchedBatches := ∅
  checkpoint := none
  l1Checkpoint := none
  startBatchId := none
  lastBatchEnd := none

/-- A statement or a transaction with its integer parameters. If one of them is no
SQLite integer nothing is written and the error is only logged. -/
def execute (params : List Nat) (statement : Db → Db) (db : Db) : Db :=
  if ∀ n ∈ params, n < 2 ^ 63 then statement db else db

def getCheckpoint (db : Db) : Nat := db.checkpoint.getD 0

def saveCheckpoint (blockNumber : Nat) (db : Db) : Db := { db with checkpoint := some blockNumber }

def saveL1Checkpoint (blockNumber : Nat) (db : Db) : Db :=
  { db with l1Checkpoint := some blockNumber }

def clearStartBatchId (db : Db) : Db := { db with startBatchId := none }

def wipeForRevert (startBatchId l1Block : Nat) (_ : Db) : Db :=
  { empty with startBatchId := some startBatchId, l1Checkpoint := some l1Block }

def saveLastBatchEnd (blockNumber : Nat) (db : Db) : Db :=
  { db with lastBatchEnd := some blockNumber }

def saveResponse (resp : EthExecutionResponse) : Db → Db :=
  execute [resp.blockNumber.toNat] fun db =>
    { db with blockResponses := db.blockResponses.insert resp.blockNumber.toNat resp }

/-- One transaction, but a row that fails does not stop it. -/
def deleteResponsesBatch (blocks : List Nat) (db : Db) : Db :=
  blocks.foldl (fun db block => execute [block]
    (fun db => { db with blockResponses := db.blockResponses.erase block }) db) db

def saveBatch (batchIndex : Nat) (batch : PendingBatch) : Db → Db :=
  execute [batchIndex, batch.fromBlock, batch.toBlock] fun db =>
    { db with pendingBatches := db.pendingBatches.insert batchIndex batch }

def updateBlobsAccepted (batchIndex : Nat) : Db → Db :=
  execute [batchIndex] fun db => { db with
    pendingBatches := db.pendingBatches.modify batchIndex ({ · with blobsAccepted := true }) }

def saveBatchSignature (batchIndex : Nat) (resp : SubmitBatchResponse) : Db → Db :=
  execute [batchIndex] fun db =>
    { db with batchSignatures := db.batchSignatures.insert batchIndex resp }

def getBatchSignature (batchIndex : Nat) (db : Db) : Option SubmitBatchResponse :=
  db.batchSignatures[batchIndex]?

def deleteBatchSignature (batchIndex : Nat) : Db → Db :=
  execute [batchIndex] fun db =>
    { db with batchSignatures := db.batchSignatures.erase batchIndex }

def savePendingBlobsAccepted (batchIndex : Nat) : Db → Db :=
  execute [batchIndex] fun db =>
    { db with pendingBlobsAccepted := db.pendingBlobsAccepted.insert batchIndex }

def deletePendingBlobsAccepted (batchIndex : Nat) : Db → Db :=
  execute [batchIndex] fun db =>
    { db with pendingBlobsAccepted := db.pendingBlobsAccepted.erase batchIndex }

def moveToDispatched (batchIndex fromBlock toBlock : Nat) (txHash : B256)
    (l1Block nonce maxFeePerGas maxPriorityFeePerGas : Nat) : Db → Db :=
  execute [batchIndex, fromBlock, toBlock, l1Block, nonce] fun db => { db with
    pendingBatches := db.pendingBatches.erase batchIndex
    dispatchedBatches := db.dispatchedBatches.insert batchIndex
      ⟨fromBlock, toBlock, txHash, l1Block, some nonce, some maxFeePerGas,
        some maxPriorityFeePerGas⟩ }

def moveToDispatchedExternal (batchIndex fromBlock toBlock : Nat) (txHash : B256)
    (l1Block : Nat) : Db → Db :=
  execute [batchIndex, fromBlock, toBlock, l1Block] fun db => { db with
    pendingBatches := db.pendingBatches.erase batchIndex
    dispatchedBatches := db.dispatchedBatches.insert batchIndex
      ⟨fromBlock, toBlock, txHash, l1Block, none, none, none⟩ }

def updateRbfState (batchIndex : Nat) (txHash : B256)
    (maxFeePerGas maxPriorityFeePerGas : Nat) : Db → Db :=
  execute [batchIndex] fun db => { db with
    dispatchedBatches := db.dispatchedBatches.modify batchIndex fun row => { row with
      txHash := txHash
      maxFeePerGas := some maxFeePerGas
      maxPriorityFeePerGas := some maxPriorityFeePerGas } }

def updateDispatchedL1Block (batchIndex l1Block : Nat) : Db → Db :=
  execute [batchIndex, l1Block] fun db => { db with
    dispatchedBatches := db.dispatchedBatches.modify batchIndex ({ · with l1Block := l1Block }) }

def finalizeDispatchedBatch (batchIndex fromBlock toBlock : Nat) : Db → Db :=
  execute [batchIndex, fromBlock, toBlock] fun db => { db with
    dispatchedBatches := db.dispatchedBatches.erase batchIndex
    blockResponses := db.blockResponses.filter fun n _ => !(fromBlock ≤ n && n ≤ toBlock)
    batchSignatures := db.batchSignatures.erase batchIndex }

def undispatchBatch (batchIndex fromBlock toBlock : Nat) : Db → Db :=
  execute [batchIndex, fromBlock, toBlock] fun db => { db with
    dispatchedBatches := db.dispatchedBatches.erase batchIndex
    pendingBatches := db.pendingBatches.insert batchIndex ⟨fromBlock, toBlock, true⟩ }

end Db

/-- The writes of the orchestrator. Each is one transaction. -/
inductive Write where
  | saveCheckpoint (blockNumber : Nat)
  | saveL1Checkpoint (blockNumber : Nat)
  | clearStartBatchId
  | wipeForRevert (startBatchId l1Block : Nat)
  | saveLastBatchEnd (blockNumber : Nat)
  | saveResponse (resp : EthExecutionResponse)
  | deleteResponsesBatch (blocks : List Nat)
  | saveBatch (batchIndex : Nat) (batch : PendingBatch)
  | updateBlobsAccepted (batchIndex : Nat)
  | saveBatchSignature (batchIndex : Nat) (resp : SubmitBatchResponse)
  | deleteBatchSignature (batchIndex : Nat)
  | savePendingBlobsAccepted (batchIndex : Nat)
  | deletePendingBlobsAccepted (batchIndex : Nat)
  | moveToDispatched (batchIndex fromBlock toBlock : Nat) (txHash : B256)
      (l1Block nonce maxFeePerGas maxPriorityFeePerGas : Nat)
  | moveToDispatchedExternal (batchIndex fromBlock toBlock : Nat) (txHash : B256) (l1Block : Nat)
  | updateRbfState (batchIndex : Nat) (txHash : B256) (maxFeePerGas maxPriorityFeePerGas : Nat)
  | updateDispatchedL1Block (batchIndex l1Block : Nat)
  | finalizeDispatchedBatch (batchIndex fromBlock toBlock : Nat)
  | undispatchBatch (batchIndex fromBlock toBlock : Nat)
deriving DecidableEq

namespace Write

/-- What is in the database after a write. -/
def apply : Write → Db → Db
  | saveCheckpoint n => Db.saveCheckpoint n
  | saveL1Checkpoint n => Db.saveL1Checkpoint n
  | clearStartBatchId => Db.clearStartBatchId
  | wipeForRevert i l1 => Db.wipeForRevert i l1
  | saveLastBatchEnd n => Db.saveLastBatchEnd n
  | saveResponse resp => Db.saveResponse resp
  | deleteResponsesBatch blocks => Db.deleteResponsesBatch blocks
  | saveBatch i batch => Db.saveBatch i batch
  | updateBlobsAccepted i => Db.updateBlobsAccepted i
  | saveBatchSignature i resp => Db.saveBatchSignature i resp
  | deleteBatchSignature i => Db.deleteBatchSignature i
  | savePendingBlobsAccepted i => Db.savePendingBlobsAccepted i
  | deletePendingBlobsAccepted i => Db.deletePendingBlobsAccepted i
  | moveToDispatched i first last tx l1 nonce fee tip =>
      Db.moveToDispatched i first last tx l1 nonce fee tip
  | moveToDispatchedExternal i first last tx l1 => Db.moveToDispatchedExternal i first last tx l1
  | updateRbfState i tx fee tip => Db.updateRbfState i tx fee tip
  | updateDispatchedL1Block i l1 => Db.updateDispatchedL1Block i l1
  | finalizeDispatchedBatch i first last => Db.finalizeDispatchedBatch i first last
  | undispatchBatch i first last => Db.undispatchBatch i first last

/-- The numbers that a write binds as SQLite integers. -/
def params : Write → List Nat
  | saveCheckpoint _ | saveL1Checkpoint _ | clearStartBatchId | wipeForRevert _ _
  | saveLastBatchEnd _ => []
  | saveResponse resp => [resp.blockNumber.toNat]
  | deleteResponsesBatch blocks => blocks
  | saveBatch i batch => [i, batch.fromBlock, batch.toBlock]
  | updateBlobsAccepted i | saveBatchSignature i _ | deleteBatchSignature i
  | savePendingBlobsAccepted i | deletePendingBlobsAccepted i | updateRbfState i _ _ _ => [i]
  | moveToDispatched i first last _ l1 nonce _ _ => [i, first, last, l1, nonce]
  | moveToDispatchedExternal i first last _ l1 => [i, first, last, l1]
  | updateDispatchedL1Block i l1 => [i, l1]
  | finalizeDispatchedBatch i first last | undispatchBatch i first last => [i, first, last]

/-- The write succeeds. -/
def Fits (write : Write) : Prop := ∀ n ∈ write.params, n < 2 ^ 63

instance (write : Write) : Decidable write.Fits :=
  inferInstanceAs (Decidable (∀ n ∈ write.params, n < 2 ^ 63))

end Write

/-- The database after the given writes, in order. -/
def Db.applyAll (db : Db) (writes : List Write) : Db :=
  writes.foldl (fun db write => write.apply db) db

namespace Db

@[simp] theorem applyAll_nil (db : Db) : db.applyAll [] = db := rfl

@[simp] theorem applyAll_cons (db : Db) (write : Write) (writes : List Write) :
    db.applyAll (write :: writes) = (write.apply db).applyAll writes := rfl

@[simp] theorem applyAll_append (db : Db) (first second : List Write) :
    db.applyAll (first ++ second) = (db.applyAll first).applyAll second := by
  simp [applyAll]

/-- A statement with parameters in range is carried out. -/
theorem execute_of_fits {params : List Nat} {statement : Db → Db} {db : Db}
    (h : ∀ n ∈ params, n < 2 ^ 63) : execute params statement db = statement db := if_pos h

section Keeps

variable {α : Type} (view : Db → α)

/-- A statement that fails changes nothing. -/
theorem execute_keeps {params : List Nat} {statement : Db → Db} {db : Db}
    (h : view (statement db) = view db) : view (execute params statement db) = view db := by
  unfold execute
  split
  · exact h
  · rfl

theorem deleteResponsesBatch_keeps (blocks : List Nat) (db : Db)
    (h : ∀ (db : Db) responses, view { db with blockResponses := responses } = view db) :
    view (db.deleteResponsesBatch blocks) = view db := by
  induction blocks generalizing db with
  | nil => rfl
  | cons block blocks ih => exact (ih _).trans (execute_keeps view (h db _))

theorem applyAll_keeps {writes : List Write} (db : Db)
    (h : ∀ write ∈ writes, ∀ db, view (write.apply db) = view db) :
    view (db.applyAll writes) = view db := by
  induction writes generalizing db with
  | nil => rfl
  | cons write writes ih =>
      rw [applyAll_cons, ih _ fun w hw => h w (.tail _ hw)]
      exact h write (.head _) db

end Keeps

/-- Where each row is deleted from every table that the earlier ones leave, all rows are. -/
theorem deleteResponsesBatch_of_rows (inv : Db → Prop) {blocks : List Nat} {db : Db}
    (hrow : ∀ block ∈ blocks, ∀ db, inv db → execute [block]
      (fun db => { db with blockResponses := db.blockResponses.erase block }) db =
        { db with blockResponses := db.blockResponses.erase block })
    (hkeep : ∀ block db, inv db → inv { db with blockResponses := db.blockResponses.erase block })
    (hdb : inv db) : db.deleteResponsesBatch blocks =
      { db with blockResponses := eraseAll db.blockResponses blocks } := by
  induction blocks generalizing db with
  | nil => rfl
  | cons block blocks ih =>
      rw [deleteResponsesBatch, List.foldl_cons, hrow block (.head _) db hdb,
        ← deleteResponsesBatch,
        ih (fun b hb => hrow b (.tail _ hb)) (hkeep block db hdb)]
      rfl

theorem deleteResponsesBatch_of_fits {blocks : List Nat} {db : Db} (h : ∀ n ∈ blocks, n < 2 ^ 63) :
    db.deleteResponsesBatch blocks =
      { db with blockResponses := eraseAll db.blockResponses blocks } := by
  refine deleteResponsesBatch_of_rows (fun _ => True) (fun block hblock db _ => ?_)
    (fun _ _ _ => trivial) trivial
  exact execute_of_fits (List.forall_mem_singleton.mpr (h block hblock))

end Db

end FluentStf.Orchestrator
