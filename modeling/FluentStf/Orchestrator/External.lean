import FluentStf.Orchestrator.Lifecycle
import FluentStf.Orchestrator.Turn

/-! Batches that were preconfirmed by a transaction of somebody else, or of an earlier
process: what is recorded for them, and how long it stays. -/
namespace FluentStf.Orchestrator

open Std

open Nitro (SubmitBatchResponse)

namespace Process

/-- Memory and database both name the transaction and its L1 block. -/
def Recorded (p : Process) (i : Nat) (txHash : B256) (l1Block : Nat) : Prop :=
  RowHolds p.state.accumulator.dispatched i txHash l1Block ∧
    RowHolds p.db.dispatchedBatches i txHash l1Block

end Process

/-- After the outcome `AlreadyPreconfirmed` the row holds what the outcome says if the
batch is pending and its numbers can be stored. A row that exists already is not
touched. -/
theorem already_preconfirmed_recorded_iff (p : Process) (now i : Nat) (txHash : B256)
    (l1Block : Nat) :
    (p.turn now (.dispatchDone i (.alreadyPreconfirmed txHash l1Block))).Recorded i txHash
        l1Block ↔
      match p.state.accumulator.batches[i]? with
      | some batch =>
          (∀ n ∈ [i, batch.fromBlock, batch.toBlock, l1Block], n < 2 ^ 63) ∨
            RowHolds p.db.dispatchedBatches i txHash l1Block
      | none => p.Recorded i txHash l1Block := by
  simp only [Process.Recorded, Process.turn_accumulator, Process.turn_db, OrchestratorState.actions,
    Action.run, Action.apply, Operation.apply, BatchAccumulator.markDispatchedExternal,
    List.append_nil]
  cases hbatch : p.state.accumulator.batches[i]? with
  | none => simp
  | some batch =>
      have hholds : ∀ table : ExtTreeMap Nat DispatchedBatch, RowHolds (table.insert i
          ⟨batch.fromBlock, batch.toBlock, txHash, l1Block, none, none, none⟩) i txHash
            l1Block := by
        intro table
        simp [RowHolds]
      simp only [Db.applyAll_cons, Db.applyAll_nil, Write.apply, Db.moveToDispatchedExternal,
        Db.execute]
      split
      · next hfits => exact iff_of_true ⟨hholds _, hholds _⟩ (.inl hfits)
      · next hfits => rw [and_iff_right (hholds _), or_iff_right hfits]

/-- A dispatched row of an earlier process whose transaction was replaced by one that
landed. The resume worker reports it, and the row stays as it was. -/
theorem already_preconfirmed_not_recorded :
    let row : DispatchedBatch := ⟨1, 1, .ofNat 1, 0, some 7, some 100, some 10⟩
    let db : Db := { Db.empty with
      dispatchedBatches := (∅ : ExtTreeMap Nat DispatchedBatch).insert 1 row
      batchSignatures := (∅ : ExtTreeMap Nat SubmitBatchResponse).insert 1 ⟨[], [], [7]⟩ }
    let p := Process.start db .noOp
    let q := p.turn 0 (.dispatchDone 1 (.alreadyPreconfirmed (.ofNat 2) 50))
    p.state.spawned = [.rbfWorker 1 [7] (some ⟨7, .ofNat 1, 100, 10⟩)] ∧
      q.state.accumulator.dispatched[1]? = some row ∧ q.db.dispatchedBatches[1]? = some row := by
  decide +kernel

section Rows

/-- The batch whose dispatched row a write changes. -/
def Write.rowIndex? : Write → Option Nat
  | moveToDispatched i _ _ _ _ _ _ _ | moveToDispatchedExternal i _ _ _ _
  | updateRbfState i _ _ _ | updateDispatchedL1Block i _ | finalizeDispatchedBatch i _ _
  | undispatchBatch i _ _ => some i
  | _ => none

def Write.Wipes : Write → Prop
  | wipeForRevert _ _ => True
  | _ => False

theorem Write.dispatchedBatches_apply {write : Write} {i : Nat} (db : Db)
    (hindex : write.rowIndex? ≠ some i) (hwipes : ¬write.Wipes) :
    (write.apply db).dispatchedBatches[i]? = db.dispatchedBatches[i]? := by
  cases write with
  | wipeForRevert => exact absurd trivial hwipes
  | saveCheckpoint | saveL1Checkpoint | clearStartBatchId | saveLastBatchEnd => rfl
  | deleteResponsesBatch blocks =>
      exact Db.deleteResponsesBatch_keeps (fun db => db.dispatchedBatches[i]?) blocks db
        fun _ _ => rfl
  | saveResponse | saveBatch | updateBlobsAccepted | saveBatchSignature | deleteBatchSignature
  | savePendingBlobsAccepted | deletePendingBlobsAccepted =>
      exact Db.execute_keeps (fun db => db.dispatchedBatches[i]?) rfl
  | moveToDispatched j | moveToDispatchedExternal j | updateRbfState j
  | updateDispatchedL1Block j | finalizeDispatchedBatch j | undispatchBatch j =>
      have hij : j ≠ i := by simpa [rowIndex?] using hindex
      refine Db.execute_keeps (fun db => db.dispatchedBatches[i]?) ?_
      simp [ExtTreeMap.getElem?_insert, ExtTreeMap.getElem?_erase,
        ExtTreeMap.getElem?_modify, hij]

theorem Db.dispatchedBatches_applyAll {writes : List Write} {i : Nat} (db : Db)
    (hindex : ∀ write ∈ writes, write.rowIndex? ≠ some i)
    (hwipes : ∀ write ∈ writes, ¬write.Wipes) :
    (db.applyAll writes).dispatchedBatches[i]? = db.dispatchedBatches[i]? :=
  db.applyAll_keeps (fun db => db.dispatchedBatches[i]?) fun write hwrite db =>
    write.dispatchedBatches_apply db (hindex write hwrite) (hwipes write hwrite)

/-- An operation writes no row but that of its own batch. -/
theorem Operation.writes_rowIndex (op : Operation) (acc : BatchAccumulator) :
    ∀ write ∈ (op.apply acc).2, (write.rowIndex? = none ∨ write.rowIndex? = op.batchIndex?) ∧
      ¬write.Wipes := by
  cases op with
  | setBatch =>
      simp only [apply, BatchAccumulator.setBatch]
      split
      · simp
      · split <;> simp [Write.rowIndex?, Write.Wipes]
  | markBatchSubmitted =>
      simp only [apply, BatchAccumulator.markBatchSubmitted]
      split <;> simp [Write.rowIndex?, Write.Wipes]
  | markDispatched | markDispatchedExternal | finalizeDispatched =>
      simp only [apply, BatchAccumulator.markDispatched, BatchAccumulator.markDispatchedExternal,
        BatchAccumulator.finalizeDispatched]
      split <;> simp [Write.rowIndex?, Write.Wipes, batchIndex?]
  | undispatch =>
      simp only [apply, BatchAccumulator.undispatch]
      split
      · simp
      · split <;> simp [Write.rowIndex?, Write.Wipes, batchIndex?]
  | insertResponse | purgeResponses | signed | deleteBatchSignature | recordRbfBump
  | recordDispatchedL1Block =>
      simp [apply, BatchAccumulator.insertResponse, BatchAccumulator.purgeResponses,
        BatchAccumulator.deleteBatchSignature, BatchAccumulator.recordRbfBump,
        BatchAccumulator.recordDispatchedL1Block, Write.rowIndex?, Write.Wipes, batchIndex?]

/-- Batch `i` was dispatched by somebody else. Its row names `txHash`, in memory and in
the database. -/
structure ExternalRow (acc : BatchAccumulator) (db : Db) (i : Nat) (txHash : B256) : Prop where
  memory : ∃ row, acc.InPhase i (.dispatched row) ∧ row.nonce = none ∧ row.txHash = txHash
  stored : db.dispatchedBatches[i]?.map DispatchedBatch.txHash = some txHash

namespace Action

/-- The transaction that the action writes into the row of batch `i`. -/
def bumped (i : Nat) : Action → Option B256
  | operation (.recordRbfBump j txHash _ _) => if j = i then some txHash else none
  | _ => none

/-- The action removes the row of batch `i`. -/
def Drops (i : Nat) : Action → Prop
  | operation op => op = .finalizeDispatched i
  | cacheSignature _ _ => False
  | persist write => write.Wipes ∨ write.rowIndex? = some i

end Action

namespace ExternalRow

variable {acc : BatchAccumulator} {db : Db} {i : Nat} {txHash : B256}

theorem congr {acc' : BatchAccumulator} {db' : Db} (h : ExternalRow acc db i txHash)
    (hbatches : acc'.batches[i]? = acc.batches[i]?)
    (hdispatched : acc'.dispatched[i]? = acc.dispatched[i]?)
    (hstored : db'.dispatchedBatches[i]? = db.dispatchedBatches[i]?) :
    ExternalRow acc' db' i txHash := by
  obtain ⟨row, hrow, hnonce, htx⟩ := h.memory
  exact ⟨⟨row, hrow.congr hbatches hdispatched, hnonce, htx⟩, hstored ▸ h.stored⟩

/-- What `mark_dispatched_external` leaves behind. -/
theorem of_markDispatchedExternal {batch : PendingBatch} {l1Block : Nat}
    (hbatch : acc.batches[i]? = some batch)
    (hfits : ∀ n ∈ [i, batch.fromBlock, batch.toBlock, l1Block], n < 2 ^ 63) :
    ExternalRow (acc.markDispatchedExternal i txHash l1Block).1
      (db.applyAll (acc.markDispatchedExternal i txHash l1Block).2) i txHash := by
  simp only [BatchAccumulator.markDispatchedExternal, hbatch, Db.applyAll_cons, Db.applyAll_nil,
    Write.apply, Db.moveToDispatchedExternal, Db.execute_of_fits hfits]
  exact ⟨⟨⟨batch.fromBlock, batch.toBlock, txHash, l1Block, none, none, none⟩,
    by simp [BatchAccumulator.InPhase], rfl, rfl⟩, by simp⟩

variable (h : ExternalRow acc db i txHash)

include h

/-- Operations on other batches do not matter. -/
theorem frame {op : Operation} (hop : op.batchIndex? ≠ some i) :
    ExternalRow (op.apply acc).1 (db.applyAll (op.apply acc).2) i txHash := by
  obtain ⟨hbatches, hdispatched, _⟩ := op.apply_frame acc hop
  refine h.congr hbatches hdispatched (Db.dispatchedBatches_applyAll db ?_ ?_)
  · intro write hwrite hindex
    obtain hnone | heq := (op.writes_rowIndex acc write hwrite).1
    · rw [hnone] at hindex
      cases hindex
    · exact hop (heq ▸ hindex)
  · exact fun write hwrite => (op.writes_rowIndex acc write hwrite).2

/-- The row of an external batch changes its transaction by a bump only. -/
theorem apply_operation {op : Operation} (hi : i < 2 ^ 63) (hkept : op ≠ .finalizeDispatched i) :
    ExternalRow (op.apply acc).1 (db.applyAll (op.apply acc).2) i
      (((Action.operation op).bumped i).getD txHash) := by
  by_cases hop : op.batchIndex? = some i
  · have hfits : ∀ n ∈ [i], n < 2 ^ 63 := by simpa using hi
    obtain ⟨row, hrow, hnonce, htx⟩ := h.memory
    have hstored := h.stored
    cases op with
    | insertResponse | purgeResponses => cases hop
    | finalizeDispatched =>
        cases hop
        exact absurd rfl hkept
    | recordRbfBump j tx fee tip =>
        cases hop
        simp only [Operation.apply, BatchAccumulator.recordRbfBump, Db.applyAll_cons,
          Db.applyAll_nil, Write.apply, Db.updateRbfState, Db.execute_of_fits hfits, Action.bumped,
          if_true, Option.getD_some]
        refine ⟨⟨{ row with
          txHash := tx, maxFeePerGas := some fee, maxPriorityFeePerGas := some tip },
          ⟨hrow.1, by simp [hrow.2]⟩, hnonce, rfl⟩, ?_⟩
        cases hdb : db.dispatchedBatches[i]? <;> simp_all
    | recordDispatchedL1Block j l1 =>
        cases hop
        refine ⟨⟨{ row with l1Block := l1 }, ⟨hrow.1, ?_⟩, hnonce, htx⟩, ?_⟩
        · simp [Operation.apply, BatchAccumulator.recordDispatchedL1Block, hrow.2]
        · simp only [Operation.apply, BatchAccumulator.recordDispatchedL1Block, Db.applyAll_cons,
            Db.applyAll_nil, Write.apply, Db.updateDispatchedL1Block, Db.execute, Action.bumped,
            Option.getD_none]
          split
          · cases hdb : db.dispatchedBatches[i]? <;> simp_all
          · exact hstored
    | signed | deleteBatchSignature =>
        refine h.congr rfl rfl (Db.dispatchedBatches_applyAll db ?_ ?_) <;>
          simp [Operation.apply, BatchAccumulator.deleteBatchSignature, Write.rowIndex?,
            Write.Wipes]
    | setBatch j =>
        cases hop
        have hknown : acc.dispatched.contains i = true := by
          rw [ExtTreeMap.contains_eq_isSome_getElem?, hrow.2, Option.isSome_some]
        simpa [Operation.apply, BatchAccumulator.setBatch, hknown, Action.bumped] using h
    | markBatchSubmitted j =>
        cases hop
        have hpending : acc.batches.contains i = false := by
          rw [ExtTreeMap.contains_eq_isSome_getElem?, hrow.1, Option.isSome_none]
        simp only [Operation.apply, BatchAccumulator.markBatchSubmitted, hpending,
          Bool.false_eq_true, if_false]
        exact h.congr rfl rfl (Db.dispatchedBatches_applyAll db
          (by simp [Write.rowIndex?]) (by simp [Write.Wipes]))
    | markDispatched j | markDispatchedExternal j =>
        cases hop
        simpa [Operation.apply, BatchAccumulator.markDispatched,
          BatchAccumulator.markDispatchedExternal, hrow.1, Action.bumped] using h
    | undispatch j =>
        cases hop
        simpa [Operation.apply, BatchAccumulator.undispatch, hrow.2, hnonce, Action.bumped] using h
  · have hnone : (Action.operation op).bumped i = none := by
      cases op with
      | recordRbfBump j => simpa [Action.bumped, Operation.batchIndex?] using hop
      | _ => rfl
    rw [hnone]
    exact h.frame hop

theorem apply {action : Action} (hi : i < 2 ^ 63) (hkept : ¬action.Drops i) :
    ExternalRow (action.apply acc).1 (db.applyAll (action.apply acc).2) i
      ((action.bumped i).getD txHash) := by
  cases action with
  | operation op => exact h.apply_operation hi hkept
  | cacheSignature => exact h.congr rfl rfl rfl
  | persist write =>
      refine h.congr rfl rfl (Db.dispatchedBatches_applyAll db ?_ ?_)
      · simpa [Action.apply] using fun hindex => hkept (.inr hindex)
      · simpa [Action.apply] using fun hwipes => hkept (.inl hwipes)

theorem run {actions : List Action} (hi : i < 2 ^ 63) (hkept : ∀ action ∈ actions, ¬action.Drops i)
    :
    ExternalRow (Action.run acc actions).1 (db.applyAll (Action.run acc actions).2) i
      (actions.foldl (fun txHash action => (action.bumped i).getD txHash) txHash) := by
  induction actions generalizing acc db txHash with
  | nil => exact h
  | cons action actions ih =>
      rw [Action.run, Db.applyAll_append]
      exact ih (h.apply hi (hkept action (.head _)))
        fun a ha => hkept a (.tail _ ha)

end ExternalRow

namespace Message

/-- The transaction of a bump of batch `i`. -/
def bumped (i : Nat) : Message → Option B256
  | rbfBump j (.bumped txHash _ _) => if j = i then some txHash else none
  | _ => none

/-- The message finalizes batch `i`, or it is a revert, which wipes the database and ends
the loop. -/
def Forgets (i : Nat) : Message → Prop
  | finalizationDone (.observed observations) => ∃ txHash, (i, txHash, .found) ∈ observations
  | l1Event (.batchReverted _ _) => True
  | _ => False

end Message

namespace OrchestratorState

theorem actions_not_drops {s : OrchestratorState} {message : Message} {i : Nat}
    (h : ¬message.Forgets i) : ∀ action ∈ s.actions message, ¬action.Drops i := by
  intro action haction hdrops
  cases causes_of_mem haction with
  | finalize hmem =>
      cases hdrops
      exact h ⟨_, hmem⟩
  | wiped => exact h trivial
  | lastBatchEnd | checkpoint | polled =>
      simp [Action.Drops, Write.Wipes, Write.rowIndex?] at hdrops
  | _ => cases hdrops

theorem actions_bumped (s : OrchestratorState) (message : Message) (i : Nat) (txHash : B256) :
    (s.actions message).foldl (fun txHash action => (action.bumped i).getD txHash) txHash =
      (message.bumped i).getD txHash := by
  have hnone : ∀ actions : List Action, (∀ action ∈ actions, action.bumped i = none) →
      actions.foldl (fun txHash action => (action.bumped i).getD txHash) txHash = txHash := by
    intro actions
    induction actions with
    | nil => exact fun _ => rfl
    | cons action actions ih =>
        intro h
        rw [List.foldl_cons, h action (.head _), Option.getD_none]
        exact ih fun a ha => h a (.tail _ ha)
  cases message with
  | finalizationDone done =>
      cases done with
      | observed observations =>
          refine hnone _ fun action haction => ?_
          cases (causes_of_finalization haction : Causes s.accumulator _ _) <;> rfl
      | noOp | taskFailed => rfl
  | blockResult result =>
      simp only [actions]
      split <;> rfl
  | signDone j outcome =>
      cases outcome with
      | signed response =>
          simp only [actions]
          split <;> rfl
      | invalidSignatures | taskFailed => rfl
  | l1Event event => cases event <;> rfl
  | dispatchDone j outcome => cases outcome <;> rfl
  | rbfBump j event => cases event <;> rfl
  | finalizationTick | keyCheckDone => rfl

end OrchestratorState

end Rows

/-- The transaction of the last bump of batch `i`, if there was one. -/
def lastBump (i : Nat) (events : List (Nat × Message)) (txHash : B256) : B256 :=
  events.foldl (fun txHash event => (event.2.bumped i).getD txHash) txHash

theorem ExternalRow.turns {p q : Process} {events : List (Nat × Message)} {i : Nat}
    {txHash : B256} (hrun : Run Process.Step p events q) (hi : i < 2 ^ 63)
    (h : ExternalRow p.state.accumulator p.db i txHash)
    (hkept : ∀ event ∈ events, ¬event.2.Forgets i) :
    ExternalRow q.state.accumulator q.db i (lastBump i events txHash) := by
  induction hrun generalizing txHash with
  | nil => exact h
  | @cons p q _ event events head _ ih =>
      obtain ⟨_, rfl⟩ := head
      have hstep := h.run hi (OrchestratorState.actions_not_drops (s := p.state)
        (hkept event (.head _)))
      rw [OrchestratorState.actions_bumped, ← Process.turn_accumulator, ← Process.turn_db] at hstep
      exact ih hstep fun e he => hkept e (.tail _ he)

/-- `mark_dispatched_external` has just recorded the transaction for batch `i`. -/
def Process.RecordedExternal (p : Process) (i : Nat) (txHash : B256) (l1Block : Nat) : Prop :=
  ∃ acc : BatchAccumulator, ∃ db : Db, ∃ batch, acc.batches[i]? = some batch ∧
    (∀ n ∈ [i, batch.fromBlock, batch.toBlock, l1Block], n < 2 ^ 63) ∧
    p.state.accumulator = (acc.markDispatchedExternal i txHash l1Block).1 ∧
    p.db = db.applyAll (acc.markDispatchedExternal i txHash l1Block).2

/-- Until it is finalized, the row of an external batch names its transaction, in memory
and in the database, exactly if the last bump that was handled names it too. -/
theorem external_row_kept_iff {p q : Process} {events : List (Nat × Message)} {i l1Block : Nat}
    {txHash : B256} (hrecorded : p.RecordedExternal i txHash l1Block)
    (hrun : Run Process.Step p events q) (hkept : ∀ event ∈ events, ¬event.2.Forgets i) :
    (q.state.accumulator.dispatchedTxHash i = some txHash ∧
        q.db.dispatchedBatches[i]?.map DispatchedBatch.txHash = some txHash) ↔
      lastBump i events txHash = txHash := by
  obtain ⟨acc, db, batch, hbatch, hfits, hacc, hdb⟩ := hrecorded
  have hstart : ExternalRow p.state.accumulator p.db i txHash := by
    rw [hacc, hdb]
    exact .of_markDispatchedExternal hbatch hfits
  have hrow := hstart.turns hrun (hfits i (.head _)) hkept
  obtain ⟨row, hphase, _, htx⟩ := hrow.memory
  rw [BatchAccumulator.dispatchedTxHash, hphase.2, Option.map_some, htx, hrow.stored]
  simp

section Sample

/-- While the worker runs, somebody else preconfirms batch 1 with transaction 1. -/
private def preconfirmed : Process :=
  Process.dispatchingFirst.turn 3 (.l1Event (.batchPreconfirmed 1 (.ofNat 1) 50))

theorem external_row_kept_sample :
    let events := [(4, .rbfBump 1 (.initialBroadcast (.ofNat 2) 7 100 10)),
      (5, .rbfBump 1 (.capReached 120)), (6, .dispatchDone 1 (.submitted (.ofNat 2) 51)),
      (7, Message.dispatchDone 1 .failed)]
    let q := preconfirmed.turns events
    q.state.accumulator.dispatchedTxHash 1 = some (.ofNat 1) ∧
      q.db.dispatchedBatches[1]?.map DispatchedBatch.txHash = some (.ofNat 1) := by
  intro events q
  have hrecorded : preconfirmed.RecordedExternal 1 (.ofNat 1) 50 := by
    refine ⟨Process.dispatchingFirst.state.accumulator, Process.dispatchingFirst.db, ⟨1, 1, true⟩,
      by decide +kernel, by decide, ?_, ?_⟩
    · rw [preconfirmed, Process.turn_accumulator]
      rfl
    · rw [preconfirmed, Process.turn_db, OrchestratorState.actions, Action.run, Action.run,
        List.append_nil]
      rfl
  refine (external_row_kept_iff hrecorded (Process.run_turns (by decide +kernel)) ?_).mpr
    (by decide +kernel)
  simp [events, Message.Forgets]

/-- The worker goes on bumping its own transaction, and its bump replaces the external
one. -/
theorem external_row_overwritten :
    let q := preconfirmed.turns [(4, .rbfBump 1 (.initialBroadcast (.ofNat 2) 7 100 10)),
      (5, .rbfBump 1 (.bumped (.ofNat 3) 120 12))]
    preconfirmed.state.accumulator.dispatched[1]? =
        some ⟨1, 1, .ofNat 1, 50, none, none, none⟩ ∧
      q.state.accumulator.dispatched[1]? =
        some ⟨1, 1, .ofNat 3, 50, none, some 120, some 12⟩ ∧
      q.db.dispatchedBatches[1]? = some ⟨1, 1, .ofNat 3, 50, none, some 120, some 12⟩ := by
  decide +kernel

end Sample

end FluentStf.Orchestrator
