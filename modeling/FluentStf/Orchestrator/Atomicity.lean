import FluentStf.Orchestrator.Restart
import FluentStf.Weight

/-! What a process leaves that stops inside an operation. Every operation writes in one
transaction, except that `set_batch` first deletes a buffered `BatchSubmitted` and then
stores the batch that it belongs to. -/
namespace FluentStf.Orchestrator

open BatchAccumulator Std

open Nitro (EthExecutionResponse SubmitBatchResponse)

/-- The numbers of all rows are SQLite integers. -/
structure Db.RowsFit (db : Db) : Prop where
  batches : All (fun i batch => RangeFits i batch.fromBlock batch.toBlock) db.pendingBatches
  dispatched : All (fun i row => RangeFits i row.fromBlock row.toBlock) db.dispatchedBatches
  responses : All (fun n _ => n < 2 ^ 63) db.blockResponses
  blobsAccepted : ∀ i ∈ db.pendingBlobsAccepted, i < 2 ^ 63

theorem contains_eq_false_iff {α : Type} {table : ExtTreeMap Nat α} {key : Nat} :
    table.contains key = false ↔ key ∉ table := by
  rw [ExtTreeMap.mem_iff_contains, Bool.not_eq_true]

namespace Db.RowsFit

variable {db : Db}

theorem empty : Db.empty.RowsFit :=
  ⟨.empty, .empty, .empty, fun _ hi => absurd hi ExtTreeSet.not_mem_empty⟩

/-- A statement is only carried out if its numbers fit. -/
theorem execute {params : List Nat} {statement : Db → Db} (h : db.RowsFit)
    (hstatement : (∀ n ∈ params, n < 2 ^ 63) → (statement db).RowsFit) :
    (Db.execute params statement db).RowsFit := by
  unfold Db.execute
  split
  · next hfits => exact hstatement hfits
  · exact h

theorem deleteResponsesBatch (h : db.RowsFit) (blocks : List Nat) :
    (db.deleteResponsesBatch blocks).RowsFit := by
  induction blocks generalizing db with
  | nil => exact h
  | cons block blocks ih =>
      exact ih (h.execute fun _ =>
        ⟨h.batches, h.dispatched, h.responses.erase block, h.blobsAccepted⟩)

theorem apply (h : db.RowsFit) (write : Write) : (write.apply db).RowsFit := by
  cases write with
  | wipeForRevert => exact ⟨.empty, .empty, .empty, empty.blobsAccepted⟩
  | saveCheckpoint | saveL1Checkpoint | clearStartBatchId | saveLastBatchEnd =>
      exact ⟨h.batches, h.dispatched, h.responses, h.blobsAccepted⟩
  | deleteResponsesBatch blocks => exact h.deleteResponsesBatch blocks
  | saveResponse resp =>
      apply h.execute
      intro hfits
      exact ⟨h.batches, h.dispatched, h.responses.insert (hfits _ (by simp)), h.blobsAccepted⟩
  | saveBatch =>
      apply h.execute
      intro hfits
      exact ⟨h.batches.insert hfits, h.dispatched, h.responses, h.blobsAccepted⟩
  | updateBlobsAccepted i =>
      apply h.execute
      intro _
      exact ⟨h.batches.modify i fun _ _ hrow => hrow, h.dispatched, h.responses, h.blobsAccepted⟩
  | saveBatchSignature | deleteBatchSignature =>
      apply h.execute
      intro _
      exact ⟨h.batches, h.dispatched, h.responses, h.blobsAccepted⟩
  | savePendingBlobsAccepted i =>
      apply h.execute
      intro hfits
      refine ⟨h.batches, h.dispatched, h.responses, fun j hj => ?_⟩
      rcases ExtTreeSet.mem_insert.mp hj with heq | hj
      · exact hfits j (by simp [LawfulEqCmp.eq_of_compare heq])
      · exact h.blobsAccepted j hj
  | deletePendingBlobsAccepted =>
      apply h.execute
      intro _
      refine ⟨h.batches, h.dispatched, h.responses, fun j hj => ?_⟩
      exact h.blobsAccepted j (ExtTreeSet.mem_of_mem_erase hj)
  | moveToDispatched i | moveToDispatchedExternal i =>
      apply h.execute
      intro hfits
      refine ⟨h.batches.erase i, h.dispatched.insert fun n hn => hfits n ?_, h.responses,
        h.blobsAccepted⟩
      simp only [List.mem_cons] at hn ⊢
      tauto
  | updateRbfState i | updateDispatchedL1Block i =>
      apply h.execute
      intro _
      exact ⟨h.batches, h.dispatched.modify i fun _ _ hrow => hrow, h.responses, h.blobsAccepted⟩
  | finalizeDispatchedBatch i first last =>
      apply h.execute
      intro _
      refine ⟨h.batches, h.dispatched.erase i, fun n resp hresp => ?_, h.blobsAccepted⟩
      rw [getElem?_filter_key] at hresp
      split at hresp
      · exact h.responses n resp hresp
      · cases hresp
  | undispatchBatch i =>
      apply h.execute
      intro hfits
      exact ⟨h.batches.insert hfits, h.dispatched.erase i, h.responses, h.blobsAccepted⟩

theorem applyAll (h : db.RowsFit) (writes : List Write) : (db.applyAll writes).RowsFit := by
  induction writes generalizing db with
  | nil => exact h
  | cons write writes ih => exact ih (h.apply write)

/-- Responses with other numbers cannot be deleted, but there are none. -/
theorem deleteResponsesBatch_eq (h : db.RowsFit) (blocks : List Nat) :
    db.deleteResponsesBatch blocks =
      { db with blockResponses := eraseAll db.blockResponses blocks } := by
  refine Db.deleteResponsesBatch_of_rows Db.RowsFit (fun block _ db h => ?_)
    (fun block db h => ?_) h
  · unfold Db.execute
    split
    · rfl
    · next hfits =>
        have hblock : db.blockResponses[block]? = none := by
          cases hresp : db.blockResponses[block]? with
          | none => rfl
          | some resp => exact absurd (by simpa using h.responses block resp hresp) hfits
        rw [erase_of_none hblock]
  · exact ⟨h.batches, h.dispatched, h.responses.erase block, h.blobsAccepted⟩

end Db.RowsFit

/-- A write whose numbers do not fit is only logged. -/
theorem Write.apply_of_not_fits {write : Write} (h : ¬write.Fits)
    (hpurge : ∀ blocks, write ≠ .deleteResponsesBatch blocks) (db : Db) : write.apply db = db := by
  cases write with
  | deleteResponsesBatch blocks => exact absurd rfl (hpurge blocks)
  | saveCheckpoint | saveL1Checkpoint | clearStartBatchId | wipeForRevert | saveLastBatchEnd =>
      exact absurd (fun _ hn => absurd hn List.not_mem_nil) h
  | _ => exact if_neg h

/-- What of the accumulator is in the tables other than the signatures. -/
def BatchAccumulator.tables (acc : BatchAccumulator) : ExtTreeMap Nat PendingBatch ×
    ExtTreeMap Nat EthExecutionResponse × ExtTreeSet Nat ×
      ExtTreeMap Nat DispatchedBatch :=
  (acc.batches, acc.responses, acc.pendingBlobsAccepted, acc.dispatched)

theorem BatchAccumulator.tables_withDb (db : Db) : (withDb db).1.tables = db.tables := rfl

theorem Mirrors.tables_eq {acc : BatchAccumulator} {db : Db} (h : Mirrors acc db) :
    db.tables = acc.tables := by
  rw [Db.tables, tables, h.batches, h.responses, h.blobsAccepted, h.dispatched]

/-- What a process loads is in step with the database. -/
theorem Db.RowsFit.mirrors {db : Db} (h : db.RowsFit) :
    Mirrors (withDb db).1 (db.applyAll (withDb db).2) := by
  have hloaded : Mirrors (withDb db).1 db :=
    ⟨rfl, rfl, rfl, rfl, h.batches, h.dispatched⟩
  exact hloaded.restart

namespace Store

/-- The process stops after some of the transactions of an operation, and a new one
starts. -/
def stopWithin (s : Store) (op : Operation) (count : Nat) : Store :=
  restart ⟨s.accumulator, s.db.applyAll ((op.apply s.accumulator).2.take count)⟩

/-- The stores of processes that run, stop and start again, as long as all numbers are
SQLite integers. -/
inductive Reachable : Store → Prop
  | empty : Reachable .empty
  | perform {s : Store} {op : Operation} (h : Reachable s) (hfits : op.Fits) :
      Reachable (s.perform op)
  | stopWithin {s : Store} {op : Operation} (count : Nat) (h : Reachable s) (hfits : op.Fits) :
      Reachable (s.stopWithin op count)

/-- After any number of its transactions, an operation is found done or not begun. -/
def CrashAtomic (s : Store) (op : Operation) : Prop :=
  ∀ count, let db := s.db.applyAll ((op.apply s.accumulator).2.take count)
    (withDb db).1.tables = s.accumulator.tables ∨
      (withDb db).1.tables = (op.apply s.accumulator).1.tables

/-- A batch is registered that was submitted before. -/
def RegistersSubmitted (acc : BatchAccumulator) (op : Operation) : Prop :=
  ∃ i fromBlock toBlock, op = .setBatch i fromBlock toBlock ∧ i ∉ acc.batches ∧
    i ∉ acc.dispatched ∧ i ∈ acc.pendingBlobsAccepted

variable {s : Store} {op : Operation}

theorem Reachable.rowsFit (h : Reachable s) : s.db.RowsFit := by
  induction h with
  | empty => exact .empty
  | perform _ _ ih => exact ih.applyAll _
  | stopWithin _ _ _ ih => exact (ih.applyAll _).applyAll _

theorem Reachable.mirrors (h : Reachable s) : Mirrors s.accumulator s.db := by
  induction h with
  | empty => exact Mirrors.empty
  | perform _ hfits ih => exact ih.apply hfits
  | stopWithin _ h => exact (h.rowsFit.applyAll _).mirrors

/-- Any other operation makes at most one transaction. -/
theorem writes_of_not_registers {acc : BatchAccumulator} (h : ¬RegistersSubmitted acc op) :
    (op.apply acc).2 = [] ∨ ∃ write, (op.apply acc).2 = [write] := by
  cases op with
  | insertResponse | purgeResponses | signed | deleteBatchSignature | recordRbfBump
  | recordDispatchedL1Block => exact .inr ⟨_, rfl⟩
  | setBatch i first last =>
      simp only [Operation.apply, setBatch]
      split
      · exact .inl rfl
      · next hnew =>
          have hflag : acc.pendingBlobsAccepted.contains i = false := by
            rw [Bool.not_eq_true, Bool.or_eq_false_iff] at hnew
            by_contra hflag
            exact h ⟨i, first, last, rfl, contains_eq_false_iff.mp hnew.2,
              contains_eq_false_iff.mp hnew.1, by simpa using hflag⟩
          simp [hflag]
  | markBatchSubmitted =>
      simp only [Operation.apply, markBatchSubmitted]
      split <;> exact .inr ⟨_, rfl⟩
  | markDispatched | markDispatchedExternal =>
      simp only [Operation.apply, markDispatched,
        markDispatchedExternal]
      split
      · exact .inl rfl
      · exact .inr ⟨_, rfl⟩
  | finalizeDispatched =>
      simp only [Operation.apply, finalizeDispatched]
      split
      · exact .inl rfl
      · exact .inr ⟨_, rfl⟩
  | undispatch =>
      simp only [Operation.apply, undispatch]
      split
      · exact .inl rfl
      · split
        · exact .inl rfl
        · exact .inr ⟨_, rfl⟩

/-- Responses are deleted by `purge_responses` only. -/
theorem eq_purgeResponses {acc : BatchAccumulator} {blocks : List Nat}
    (h : (op.apply acc).2 = [.deleteResponsesBatch blocks]) : op = .purgeResponses blocks := by
  cases op with
  | purgeResponses => simpa [Operation.apply, purgeResponses] using h
  | insertResponse | signed | deleteBatchSignature | recordRbfBump | recordDispatchedL1Block =>
      cases h
  | setBatch =>
      simp only [Operation.apply, setBatch] at h
      split at h
      · cases h
      · split at h <;> cases h
  | markBatchSubmitted =>
      simp only [Operation.apply, markBatchSubmitted] at h
      split at h <;> cases h
  | markDispatched | markDispatchedExternal =>
      simp only [Operation.apply, markDispatched,
        markDispatchedExternal] at h
      split at h <;> cases h
  | finalizeDispatched =>
      simp only [Operation.apply, finalizeDispatched] at h
      split at h <;> cases h
  | undispatch =>
      simp only [Operation.apply, undispatch] at h
      split at h
      · cases h
      · split at h <;> cases h

/-- A single transaction is carried out with all its effect or not at all. -/
theorem Reachable.tables_single (h : Reachable s) {write : Write}
    (hwrite : (op.apply s.accumulator).2 = [write]) :
    (write.apply s.db).tables = s.accumulator.tables ∨
      (write.apply s.db).tables = (op.apply s.accumulator).1.tables := by
  by_cases hfits : write.Fits
  · have hmirrors : Mirrors (op.apply s.accumulator).1
        (s.db.applyAll (op.apply s.accumulator).2) :=
      h.mirrors.apply_of_writes (by simpa [hwrite] using hfits)
    rw [hwrite] at hmirrors
    exact .inr hmirrors.tables_eq
  · by_cases hpurge : ∃ blocks, write = .deleteResponsesBatch blocks
    · obtain ⟨blocks, rfl⟩ := hpurge
      have htables := h.mirrors.tables_eq
      obtain rfl := eq_purgeResponses hwrite
      simp only [Db.tables, tables, Prod.mk.injEq] at htables
      refine .inr ?_
      simp only [Write.apply, h.rowsFit.deleteResponsesBatch_eq, Db.tables, htables,
        tables, Operation.apply, purgeResponses]
    · rw [write.apply_of_not_fits hfits (by simpa using hpurge)]
      exact .inl h.mirrors.tables_eq

theorem Reachable.crashAtomic (h : Reachable s) (hop : ¬RegistersSubmitted s.accumulator op) :
    s.CrashAtomic op := by
  intro count
  simp only [tables_withDb]
  rcases writes_of_not_registers hop with hnone | ⟨write, hwrite⟩
  · rw [hnone, List.take_nil]
    exact .inl h.mirrors.tables_eq
  · cases count with
    | zero => exact .inl h.mirrors.tables_eq
    | succ count =>
        have hsingle := h.tables_single hwrite
        rw [hwrite]
        simpa using hsingle

/-- After its first transaction such an operation has lost the `BatchSubmitted`. -/
theorem Reachable.not_crashAtomic (h : Reachable s) (hop : RegistersSubmitted s.accumulator op) :
    ¬s.CrashAtomic op := by
  obtain ⟨i, first, last, rfl, hbatches, hdispatched, hflag⟩ := hop
  have hnew :
      (s.accumulator.dispatched.contains i || s.accumulator.batches.contains i) = false := by
    rw [Bool.or_eq_false_iff]
    exact ⟨contains_eq_false_iff.mpr hdispatched,
      contains_eq_false_iff.mpr hbatches⟩
  have hfits : ∀ n ∈ [i], n < 2 ^ 63 := by
    simpa using h.rowsFit.blobsAccepted i (h.mirrors.blobsAccepted ▸ hflag)
  intro hatomic
  have hone := hatomic 1
  simp only [Operation.apply, setBatch, hnew, Bool.false_eq_true, if_false,
    ExtTreeSet.contains_iff_mem.mpr hflag, if_true, List.singleton_append, List.take_succ_cons,
    List.take_zero, Db.applyAll_cons, Db.applyAll_nil, Write.apply, Db.deletePendingBlobsAccepted,
    Db.execute_of_fits hfits, tables_withDb] at hone
  simp only [Db.tables, tables, h.mirrors.blobsAccepted, h.mirrors.batches,
    Prod.mk.injEq] at hone
  rcases hone with ⟨-, -, hbefore, -⟩ | ⟨hafter, -⟩
  · rw [← hbefore] at hflag
    simp at hflag
  · rw [hafter] at hbatches
    simp at hbatches

end Store

/-- Operations are atomic, except for the registration of a batch that was submitted
before. -/
theorem crash_atomic_iff {s : Store} (h : s.Reachable) (op : Operation) :
    s.CrashAtomic op ↔ ¬Store.RegistersSubmitted s.accumulator op :=
  ⟨fun hatomic hop => h.not_crashAtomic hop hatomic, h.crashAtomic⟩

/-- A batch is registered and submitted, and its worker has broadcast. -/
theorem crash_atomic_dispatch :
    ((Store.empty.perform (.setBatch 1 1 2)).perform (.markBatchSubmitted 1)).CrashAtomic
      (.markDispatched 1 .zero 0 7 100 10) :=
  (crash_atomic_iff ((Store.Reachable.empty.perform (by decide)).perform (by decide)) _).mpr (by
    rintro ⟨i, first, last, h, -⟩
    cases h)

/-- After a stop between the two transactions, batch 5 is neither buffered as submitted
nor registered. -/
theorem submitted_lost_by_crash :
    let s := Store.empty.perform (.markBatchSubmitted 5)
    let loaded := (s.stopWithin (.setBatch 5 1 2) 1).accumulator
    s.Reachable ∧ 5 ∈ s.accumulator.pendingBlobsAccepted ∧
      5 ∉ loaded.pendingBlobsAccepted ∧ 5 ∉ loaded.batches ∧
      ¬s.CrashAtomic (.setBatch 5 1 2) := by
  intro s loaded
  have hreachable : s.Reachable := Store.Reachable.empty.perform (by decide)
  refine ⟨hreachable, by decide +kernel, by decide +kernel, by decide +kernel, ?_⟩
  exact hreachable.not_crashAtomic
    ⟨5, 1, 2, rfl, by decide +kernel, by decide +kernel, by decide +kernel⟩

end FluentStf.Orchestrator
