import FluentStf.Orchestrator.Lifecycle

/-! The database mirrors the accumulator, so that a restart reproduces it. -/
namespace FluentStf.Orchestrator

open BatchAccumulator Std

open Nitro (EthExecutionResponse SubmitBatchResponse)

/-- The index and the range of a batch are SQLite integers. -/
def RangeFits (batchIndex fromBlock toBlock : Nat) : Prop :=
  ∀ n ∈ [batchIndex, fromBlock, toBlock], n < 2 ^ 63

variable {acc : BatchAccumulator}

/-- An operation whose writes succeed has arguments in range, or it does nothing. -/
theorem Operation.fits_of_writes (op : Operation) (h : ∀ write ∈ (op.apply acc).2, write.Fits) :
    op.Fits ∨ op.apply acc = (acc, []) := by
  cases op with
  | insertResponse | purgeResponses | signed | deleteBatchSignature | recordRbfBump
  | recordDispatchedL1Block => exact .inl (h _ (.head _))
  | setBatch i first last =>
      simp only [apply, BatchAccumulator.setBatch] at h ⊢
      split
      · exact .inr rfl
      · next hnew =>
          rw [if_neg hnew] at h
          exact .inl (h _ (List.mem_append_right _ (List.mem_singleton_self _)))
  | markBatchSubmitted =>
      simp only [apply, BatchAccumulator.markBatchSubmitted] at h
      split at h <;> exact .inl (h _ (.head _))
  | markDispatched | markDispatchedExternal =>
      simp only [apply, BatchAccumulator.markDispatched,
        BatchAccumulator.markDispatchedExternal] at h ⊢
      split
      · exact .inr rfl
      · next hbatch =>
          rw [hbatch] at h
          have hwrite := h _ (.head _)
          refine .inl fun n hn => hwrite n ?_
          simp only [arguments, Write.params, List.mem_cons] at hn ⊢
          tauto
  | finalizeDispatched i =>
      simp only [apply, BatchAccumulator.finalizeDispatched] at h ⊢
      split
      · exact .inr rfl
      · next hrow =>
          rw [hrow] at h
          have hwrite := h _ (.head _)
          refine .inl fun n hn => hwrite n ?_
          simp_all [arguments, Write.params]
  | undispatch i =>
      simp only [apply, BatchAccumulator.undispatch] at h ⊢
      split
      · exact .inr rfl
      · next hrow =>
          rw [hrow] at h
          split
          · exact .inr rfl
          · next hown =>
              simp only [hown] at h
              have hwrite := h _ (.head _)
              refine .inl fun n hn => hwrite n ?_
              simp_all [arguments, Write.params]

/-- The tables other than the signatures hold what the memory holds. -/
structure Mirrors (acc : BatchAccumulator) (db : Db) : Prop where
  batches : db.pendingBatches = acc.batches
  responses : db.blockResponses = acc.responses
  blobsAccepted : db.pendingBlobsAccepted = acc.pendingBlobsAccepted
  dispatched : db.dispatchedBatches = acc.dispatched
  batches_fit : All (fun i batch => RangeFits i batch.fromBlock batch.toBlock) acc.batches
  dispatched_fit : All (fun i row => RangeFits i row.fromBlock row.toBlock) acc.dispatched

/-- The tables other than the signatures. -/
def Db.tables (db : Db) : ExtTreeMap Nat PendingBatch ×
    ExtTreeMap Nat EthExecutionResponse × ExtTreeSet Nat ×
      ExtTreeMap Nat DispatchedBatch :=
  (db.pendingBatches, db.blockResponses, db.pendingBlobsAccepted, db.dispatchedBatches)

namespace Mirrors

variable {acc : BatchAccumulator} {db : Db} {batchIndex : Nat}

theorem of_tables {db' : Db} (h : Mirrors acc db) (htables : db'.tables = db.tables) :
    Mirrors acc db' := by
  simp only [Db.tables, Prod.mk.injEq] at htables
  obtain ⟨hbatches, hresponses, hblobs, hdispatched⟩ := htables
  exact ⟨hbatches.trans h.batches, hresponses.trans h.responses, hblobs.trans h.blobsAccepted,
    hdispatched.trans h.dispatched, h.batches_fit, h.dispatched_fit⟩

theorem empty : Mirrors .new .empty := ⟨rfl, rfl, rfl, rfl, .empty, .empty⟩

theorem setBatch {fromBlock toBlock : Nat} (h : Mirrors acc db)
    (hfits : RangeFits batchIndex fromBlock toBlock) :
    Mirrors (acc.setBatch batchIndex fromBlock toBlock).1
      (db.applyAll (acc.setBatch batchIndex fromBlock toBlock).2) := by
  have hindex : ∀ n ∈ [batchIndex], n < 2 ^ 63 := fun n hn => hfits n (by simp_all)
  unfold BatchAccumulator.setBatch
  split
  · exact h
  · by_cases hblobs : acc.pendingBlobsAccepted.contains batchIndex
    · simp only [hblobs, if_true, List.singleton_append, Db.applyAll_cons, Db.applyAll_nil,
        Write.apply, Db.deletePendingBlobsAccepted, Db.saveBatch, Db.execute_of_fits hindex,
        Db.execute_of_fits hfits]
      exact ⟨by rw [h.batches], h.responses, by rw [h.blobsAccepted], h.dispatched,
        h.batches_fit.insert hfits, h.dispatched_fit⟩
    · have herase : acc.pendingBlobsAccepted.erase batchIndex = acc.pendingBlobsAccepted := by
        refine ExtTreeSet.ext_mem fun i => ?_
        rw [ExtTreeSet.mem_erase]
        refine and_iff_right_of_imp fun hi hcompare => hblobs ?_
        rwa [LawfulEqCmp.eq_of_compare hcompare]
      simp only [hblobs, Bool.false_eq_true, if_false, List.nil_append, Db.applyAll_cons,
        Db.applyAll_nil, Write.apply, Db.saveBatch, Db.execute_of_fits hfits, herase]
      exact ⟨by rw [h.batches], h.responses, h.blobsAccepted, h.dispatched,
        h.batches_fit.insert hfits, h.dispatched_fit⟩

theorem insertResponse {resp : EthExecutionResponse} (h : Mirrors acc db)
    (hfits : ∀ n ∈ [resp.blockNumber.toNat], n < 2 ^ 63) :
    Mirrors (acc.insertResponse resp).1 (db.applyAll (acc.insertResponse resp).2) := by
  simp only [BatchAccumulator.insertResponse, Db.applyAll_cons, Db.applyAll_nil, Write.apply,
    Db.saveResponse, Db.execute_of_fits hfits]
  exact ⟨h.batches, by rw [h.responses], h.blobsAccepted, h.dispatched, h.batches_fit,
    h.dispatched_fit⟩

theorem markBatchSubmitted (h : Mirrors acc db) (hfits : ∀ n ∈ [batchIndex], n < 2 ^ 63) :
    Mirrors (acc.markBatchSubmitted batchIndex).1
      (db.applyAll (acc.markBatchSubmitted batchIndex).2) := by
  unfold BatchAccumulator.markBatchSubmitted
  split
  · simp only [Db.applyAll_cons, Db.applyAll_nil, Write.apply, Db.updateBlobsAccepted,
      Db.execute_of_fits hfits]
    exact ⟨by rw [h.batches], h.responses, h.blobsAccepted, h.dispatched,
      h.batches_fit.modify _ fun _ _ hrow => hrow, h.dispatched_fit⟩
  · simp only [Db.applyAll_cons, Db.applyAll_nil, Write.apply, Db.savePendingBlobsAccepted,
      Db.execute_of_fits hfits]
    exact ⟨h.batches, h.responses, by rw [h.blobsAccepted], h.dispatched, h.batches_fit,
      h.dispatched_fit⟩

theorem purgeResponses {blocks : List Nat} (h : Mirrors acc db) (hfits : ∀ n ∈ blocks, n < 2 ^ 63) :
    Mirrors (acc.purgeResponses blocks).1 (db.applyAll (acc.purgeResponses blocks).2) := by
  simp only [BatchAccumulator.purgeResponses, Db.applyAll_cons, Db.applyAll_nil, Write.apply,
    Db.deleteResponsesBatch_of_fits hfits]
  exact ⟨h.batches, by rw [h.responses], h.blobsAccepted, h.dispatched, h.batches_fit,
    h.dispatched_fit⟩

theorem markDispatched {txHash : B256} {l1Block nonce fee tip : Nat} (h : Mirrors acc db)
    (hl1 : l1Block < 2 ^ 63) (hnonce : nonce < 2 ^ 63) :
    Mirrors (acc.markDispatched batchIndex txHash l1Block nonce fee tip).1
      (db.applyAll (acc.markDispatched batchIndex txHash l1Block nonce fee tip).2) := by
  unfold BatchAccumulator.markDispatched
  split
  · exact h
  · next batch hbatch =>
      have hrange := h.batches_fit _ batch hbatch
      have hfits : ∀ n ∈ [batchIndex, batch.fromBlock, batch.toBlock, l1Block, nonce],
          n < 2 ^ 63 := by
        simp only [RangeFits, List.mem_cons, List.not_mem_nil, or_false, forall_eq_or_imp,
          forall_eq] at hrange ⊢
        exact ⟨hrange.1, hrange.2.1, hrange.2.2, hl1, hnonce⟩
      simp only [Db.applyAll_cons, Db.applyAll_nil, Write.apply, Db.moveToDispatched,
        Db.execute_of_fits hfits]
      exact ⟨by rw [h.batches], h.responses, h.blobsAccepted, by rw [h.dispatched],
        h.batches_fit.erase _, h.dispatched_fit.insert hrange⟩

theorem markDispatchedExternal {txHash : B256} {l1Block : Nat} (h : Mirrors acc db)
    (hl1 : l1Block < 2 ^ 63) :
    Mirrors (acc.markDispatchedExternal batchIndex txHash l1Block).1
      (db.applyAll (acc.markDispatchedExternal batchIndex txHash l1Block).2) := by
  unfold BatchAccumulator.markDispatchedExternal
  split
  · exact h
  · next batch hbatch =>
      have hrange := h.batches_fit _ batch hbatch
      have hfits : ∀ n ∈ [batchIndex, batch.fromBlock, batch.toBlock, l1Block], n < 2 ^ 63 := by
        simp only [RangeFits, List.mem_cons, List.not_mem_nil, or_false, forall_eq_or_imp,
          forall_eq] at hrange ⊢
        exact ⟨hrange.1, hrange.2.1, hrange.2.2, hl1⟩
      simp only [Db.applyAll_cons, Db.applyAll_nil, Write.apply, Db.moveToDispatchedExternal,
        Db.execute_of_fits hfits]
      exact ⟨by rw [h.batches], h.responses, h.blobsAccepted, by rw [h.dispatched],
        h.batches_fit.erase _, h.dispatched_fit.insert hrange⟩

theorem recordRbfBump {txHash : B256} {fee tip : Nat} (h : Mirrors acc db)
    (hfits : ∀ n ∈ [batchIndex], n < 2 ^ 63) :
    Mirrors (acc.recordRbfBump batchIndex txHash fee tip).1
      (db.applyAll (acc.recordRbfBump batchIndex txHash fee tip).2) := by
  simp only [BatchAccumulator.recordRbfBump, Db.applyAll_cons, Db.applyAll_nil, Write.apply,
    Db.updateRbfState, Db.execute_of_fits hfits]
  exact ⟨h.batches, h.responses, h.blobsAccepted, by rw [h.dispatched], h.batches_fit,
    h.dispatched_fit.modify _ fun _ _ hrow => hrow⟩

theorem recordDispatchedL1Block {l1Block : Nat} (h : Mirrors acc db)
    (hfits : ∀ n ∈ [batchIndex, l1Block], n < 2 ^ 63) :
    Mirrors (acc.recordDispatchedL1Block batchIndex l1Block).1
      (db.applyAll (acc.recordDispatchedL1Block batchIndex l1Block).2) := by
  simp only [BatchAccumulator.recordDispatchedL1Block, Db.applyAll_cons, Db.applyAll_nil,
    Write.apply, Db.updateDispatchedL1Block, Db.execute_of_fits hfits]
  exact ⟨h.batches, h.responses, h.blobsAccepted, by rw [h.dispatched], h.batches_fit,
    h.dispatched_fit.modify _ fun _ _ hrow => hrow⟩

/-- `BETWEEN` deletes the rows that the loop over the blocks removes. -/
theorem filter_eq_eraseAll (table : ExtTreeMap Nat EthExecutionResponse) (fromBlock toBlock : Nat) :
    (table.filter fun n _ => !(fromBlock ≤ n && n ≤ toBlock)) =
      eraseAll table (blocks fromBlock toBlock) := by
  refine ExtTreeMap.ext_getElem? fun n => ?_
  rw [getElem?_eraseAll, getElem?_filter_key]
  simp only [mem_blocks, Bool.not_eq_eq_eq_not, Bool.not_true, Bool.and_eq_false_iff,
    decide_eq_false_iff_not]
  split <;> split <;> first | rfl | omega

variable (h : Mirrors acc db)

include h

theorem finalizeDispatched :
    Mirrors (acc.finalizeDispatched batchIndex).1.1
      (db.applyAll (acc.finalizeDispatched batchIndex).1.2) := by
  unfold BatchAccumulator.finalizeDispatched
  split
  · exact h
  · next row hrow =>
      simp only [Db.applyAll_cons, Db.applyAll_nil, Write.apply, Db.finalizeDispatchedBatch,
        Db.execute_of_fits (h.dispatched_fit _ row hrow), filter_eq_eraseAll]
      exact ⟨h.batches, by rw [h.responses], h.blobsAccepted, by rw [h.dispatched], h.batches_fit,
        h.dispatched_fit.erase _⟩

theorem undispatch :
    Mirrors (acc.undispatch batchIndex).1.1
      (db.applyAll (acc.undispatch batchIndex).1.2) := by
  unfold BatchAccumulator.undispatch
  split
  · exact h
  · next row hrow =>
      split
      · exact h
      · have hfits := h.dispatched_fit _ row hrow
        simp only [Db.applyAll_cons, Db.applyAll_nil, Write.apply, Db.undispatchBatch,
          Db.execute_of_fits hfits]
        exact ⟨by rw [h.batches], h.responses, h.blobsAccepted, by rw [h.dispatched],
          h.batches_fit.insert hfits, h.dispatched_fit.erase _⟩

/-- Signatures are not compared. -/
theorem cacheSignatures (signatures : ExtTreeMap Nat SubmitBatchResponse) :
    Mirrors { acc with signatures := signatures } db := ⟨h.1, h.2, h.3, h.4, h.5, h.6⟩

theorem saveBatchSignature (batchIndex : Nat) (resp : SubmitBatchResponse) :
    Mirrors acc (db.saveBatchSignature batchIndex resp) :=
  h.of_tables (Db.execute_keeps Db.tables rfl)

theorem deleteBatchSignature (batchIndex : Nat) :
    Mirrors acc (db.deleteBatchSignature batchIndex) :=
  h.of_tables (Db.execute_keeps Db.tables rfl)

/-- Every operation keeps the database in step with the memory. -/
theorem apply {op : Operation} (hfits : op.Fits) :
    Mirrors (op.apply acc).1 (db.applyAll (op.apply acc).2) := by
  cases op with
  | setBatch => exact h.setBatch hfits
  | insertResponse => exact h.insertResponse hfits
  | markBatchSubmitted => exact h.markBatchSubmitted hfits
  | purgeResponses => exact h.purgeResponses hfits
  | signed i resp => exact (h.saveBatchSignature i resp).cacheSignatures _
  | deleteBatchSignature i => exact (h.deleteBatchSignature i).cacheSignatures _
  | markDispatched i tx l1 nonce =>
      exact h.markDispatched (hfits l1 (by simp [Operation.arguments]))
        (hfits nonce (by simp [Operation.arguments]))
  | markDispatchedExternal i tx l1 =>
      exact h.markDispatchedExternal (hfits l1 (by simp [Operation.arguments]))
  | recordRbfBump => exact h.recordRbfBump hfits
  | recordDispatchedL1Block => exact h.recordDispatchedL1Block hfits
  | finalizeDispatched => exact h.finalizeDispatched
  | undispatch => exact h.undispatch

/-- If its writes succeed, an operation keeps the database in step. -/
theorem apply_of_writes {op : Operation} (hfits : ∀ write ∈ (op.apply acc).2, write.Fits) :
    Mirrors (op.apply acc).1 (db.applyAll (op.apply acc).2) := by
  obtain hop | hnone := op.fits_of_writes hfits
  · exact h.apply hop
  · rw [hnone]
    exact h

/-- A new process finds the tables that the last one left. -/
theorem restart :
    Mirrors (withDb db).1 (db.applyAll (withDb db).2) := by
  have hdeleted : ∀ indexes : List Nat, ∀ db, Mirrors acc db →
      Mirrors acc (db.applyAll (indexes.map .deleteBatchSignature)) := by
    intro indexes
    induction indexes with
    | nil => exact fun _ h => h
    | cons i indexes ih => exact fun db h => ih _ (h.deleteBatchSignature i)
  have hacc : (withDb db).1 =
      { acc with signatures := (withDb db).1.signatures } := by
    simp only [withDb, h.batches, h.responses, h.blobsAccepted, h.dispatched]
  rw [hacc]
  exact (hdeleted _ db h).cacheSignatures _

end Mirrors

/-- The row of a batch, if there is one, belongs to a transaction of this process. -/
def BatchAccumulator.OwnRow (acc : BatchAccumulator) (batchIndex : Nat) : Prop :=
  ∀ row, acc.dispatched[batchIndex]? = some row → row.nonce ≠ none

/-- Signatures agree except for batches that somebody else dispatched: there the row of
the database outlives the cached signature. -/
def MirrorsSignatures (acc : BatchAccumulator) (db : Db) : Prop :=
  ∀ i, acc.OwnRow i → db.batchSignatures[i]? = acc.signatures[i]?

theorem BatchAccumulator.ownRow_iff {i : Nat} {phase : Phase} (h : acc.InPhase i phase) :
    acc.OwnRow i ↔ ¬phase.External := by
  cases phase <;> simp_all [InPhase, OwnRow, Phase.External]

/-- No batch becomes the own of this process, unless it is forgotten first. -/
theorem BatchAccumulator.ownRow_of_apply {i : Nat} {op : Operation} (hphased : acc.Phased)
    (hop : op ≠ .finalizeDispatched i) (h : (op.apply acc).1.OwnRow i) :
    acc.OwnRow i := by
  obtain ⟨phase, hphase⟩ := hphased i
  obtain ⟨next, hstep, hnext⟩ := op.apply_phase hphase
  rw [ownRow_iff hphase]
  rw [ownRow_iff hnext] at h
  intro hexternal
  refine h (hstep.external_of_external hexternal ?_)
  rintro rfl
  refine hop (hstep.eq_finalize ?_).1
  rintro rfl
  exact hexternal

/-- Writes that do not touch the signatures. -/
def Write.KeepsSignatures : Write → Prop
  | wipeForRevert _ _ | saveBatchSignature _ _ | deleteBatchSignature _
  | finalizeDispatchedBatch _ _ _ => False
  | _ => True

theorem Write.KeepsSignatures.apply {write : Write} (h : write.KeepsSignatures) (db : Db) :
    (write.apply db).batchSignatures = db.batchSignatures := by
  cases write with
  | wipeForRevert | saveBatchSignature | deleteBatchSignature | finalizeDispatchedBatch =>
      exact h.elim
  | saveCheckpoint | saveL1Checkpoint | clearStartBatchId | saveLastBatchEnd => rfl
  | deleteResponsesBatch blocks =>
      exact Db.deleteResponsesBatch_keeps Db.batchSignatures blocks db fun _ _ => rfl
  | saveResponse | saveBatch | updateBlobsAccepted | savePendingBlobsAccepted
  | deletePendingBlobsAccepted | moveToDispatched | moveToDispatchedExternal | updateRbfState
  | updateDispatchedL1Block | undispatchBatch => exact Db.execute_keeps Db.batchSignatures rfl

theorem Db.batchSignatures_applyAll {writes : List Write}
    (h : ∀ write ∈ writes, write.KeepsSignatures) (db : Db) :
    (db.applyAll writes).batchSignatures = db.batchSignatures :=
  db.applyAll_keeps Db.batchSignatures fun write hwrite => (h write hwrite).apply

theorem MirrorsSignatures.apply {db : Db} {op : Operation} (h : MirrorsSignatures acc db)
    (hphased : acc.Phased) (hmirrors : Mirrors acc db) (hfits : op.Fits) :
    MirrorsSignatures (op.apply acc).1 (db.applyAll (op.apply acc).2) := by
  intro i hown
  have hbefore := fun hop => ownRow_of_apply hphased hop hown
  -- operations that leave both sides alone
  have hkept : op ≠ .finalizeDispatched i → (∀ w ∈ (op.apply acc).2, w.KeepsSignatures) →
      (op.apply acc).1.signatures = acc.signatures →
      (db.applyAll (op.apply acc).2).batchSignatures[i]? = (op.apply acc).1.signatures[i]? := by
    intro hop hwrites hsignatures
    rw [Db.batchSignatures_applyAll hwrites, hsignatures]
    exact h i (hbefore hop)
  cases op with
  | insertResponse | purgeResponses | recordRbfBump | recordDispatchedL1Block =>
      exact hkept (by simp) (by simp [Operation.apply, insertResponse,
        purgeResponses, recordRbfBump,
        recordDispatchedL1Block, Write.KeepsSignatures]) rfl
  | setBatch =>
      refine hkept (by simp) ?_ ?_ <;> simp only [Operation.apply, setBatch]
      · split
        · simp
        · split <;> simp [Write.KeepsSignatures]
      · split <;> rfl
  | markBatchSubmitted =>
      refine hkept (by simp) ?_ ?_ <;>
        simp only [Operation.apply, markBatchSubmitted] <;> split <;>
        simp [Write.KeepsSignatures]
  | markDispatched =>
      refine hkept (by simp) ?_ ?_ <;>
        simp only [Operation.apply, markDispatched] <;> split <;>
        simp [Write.KeepsSignatures]
  | undispatch =>
      refine hkept (by simp) ?_ ?_ <;>
        simp only [Operation.apply, undispatch] <;> split <;> (try split) <;>
        simp [Write.KeepsSignatures]
  | markDispatchedExternal j tx l1 =>
      cases hbatch : acc.batches[j]? with
      | none =>
          refine hkept (by simp) ?_ ?_ <;>
            simp [Operation.apply, markDispatchedExternal, hbatch]
      | some batch =>
          by_cases hij : j = i
          · refine absurd rfl (hown ⟨batch.fromBlock, batch.toBlock, tx, l1, none, none, none⟩ ?_)
            simp [Operation.apply, markDispatchedExternal, hij ▸ hbatch, hij]
          · rw [Db.batchSignatures_applyAll, (Operation.apply_frame acc _).2.2]
            · exact h i (hbefore (by simp))
            · simp [Operation.batchIndex?, hij]
            · simp [Operation.apply, markDispatchedExternal, hbatch,
                Write.KeepsSignatures]
  | signed j resp =>
      have hj : ∀ n ∈ [j], n < 2 ^ 63 := hfits
      simp only [Operation.apply, cacheSignature, Db.applyAll_cons,
        Db.applyAll_nil, Write.apply, Db.saveBatchSignature, Db.execute_of_fits hj]
      simp only [ExtTreeMap.getElem?_insert]
      split
      · rfl
      · exact h i (hbefore (by simp))
  | deleteBatchSignature j =>
      have hj : ∀ n ∈ [j], n < 2 ^ 63 := hfits
      simp only [Operation.apply, deleteBatchSignature, Db.applyAll_cons,
        Db.applyAll_nil, Write.apply, Db.deleteBatchSignature, Db.execute_of_fits hj]
      simp only [ExtTreeMap.getElem?_erase]
      split
      · rfl
      · exact h i (hbefore (by simp))
  | finalizeDispatched j =>
      cases hrow : acc.dispatched[j]? with
      | none =>
          simp only [Operation.apply, finalizeDispatched, hrow] at hown ⊢
          exact h i hown
      | some row =>
          simp only [Operation.apply, finalizeDispatched, hrow, Db.applyAll_cons,
            Db.applyAll_nil, Write.apply, Db.finalizeDispatchedBatch,
            Db.execute_of_fits (hmirrors.dispatched_fit j row hrow)]
          simp only [ExtTreeMap.getElem?_erase]
          split
          · rfl
          · next hij => exact h i (hbefore (by rintro ⟨⟩; simp at hij))

namespace Store

/-- The database is in step with the memory, batch by batch. -/
structure Consistent (s : Store) : Prop where
  mirrors : Mirrors s.accumulator s.db
  phased : s.accumulator.Phased

theorem Consistent.empty : empty.Consistent :=
  ⟨Mirrors.empty, fun i => ⟨.absent, inPhase_new i⟩⟩

theorem Consistent.perform {s : Store} (h : s.Consistent) {op : Operation} (hfits : op.Fits) :
    (s.perform op).Consistent := ⟨h.mirrors.apply hfits, h.phased.apply op⟩

theorem Consistent.restart {s : Store} (h : s.Consistent) : s.restart.Consistent := by
  refine ⟨h.mirrors.restart, fun i => ?_⟩
  obtain ⟨phase, hphase⟩ := h.phased i
  refine ⟨phase, hphase.congr ?_ ?_⟩
  · simp only [Store.restart, withDb, h.mirrors.batches]
  · simp only [Store.restart, withDb, h.mirrors.dispatched]

/-- The invariant of a process that never restarted. -/
theorem consistent_performed {ops : List Operation} (hfits : ∀ op ∈ ops, op.Fits) :
    (ops.foldl perform empty).Consistent ∧
      MirrorsSignatures (ops.foldl perform empty).accumulator (ops.foldl perform empty).db := by
  have hrun : ∀ s : Store, s.Consistent → MirrorsSignatures s.accumulator s.db →
      (ops.foldl perform s).Consistent ∧
        MirrorsSignatures (ops.foldl perform s).accumulator (ops.foldl perform s).db := by
    induction ops with
    | nil => exact fun _ h hsignatures => ⟨h, hsignatures⟩
    | cons op ops ih =>
        intro s h hsignatures
        have hop := hfits op (.head _)
        exact ih (fun op hop => hfits op (.tail _ hop)) _ (h.perform hop)
          (hsignatures.apply h.phased h.mirrors hop)
  exact hrun empty .empty fun i _ => rfl

end Store

/-- A restart after any operations finds the state that the operations left. Signatures
are compared where the process may still use them. -/
theorem restart_reproduces (ops : List Operation) (hfits : ∀ op ∈ ops, op.Fits) :
    let live := ops.foldl Store.perform .empty
    let loaded := (withDb live.db).1
    loaded.batches = live.accumulator.batches ∧
      loaded.responses = live.accumulator.responses ∧
      loaded.pendingBlobsAccepted = live.accumulator.pendingBlobsAccepted ∧
      loaded.dispatched = live.accumulator.dispatched ∧
      ∀ i, (i ∈ live.accumulator.batches ∨
          ∃ row, live.accumulator.dispatched[i]? = some row ∧ row.nonce ≠ none) →
        loaded.signatures[i]? = live.accumulator.signatures[i]? := by
  intro live loaded
  obtain ⟨⟨hmirrors, hphased⟩, hsignatures⟩ := Store.consistent_performed hfits
  refine ⟨hmirrors.batches, hmirrors.responses, hmirrors.blobsAccepted, hmirrors.dispatched,
    fun i hi => ?_⟩
  have hknown : (live.db.pendingBatches.contains i || live.db.dispatchedBatches.contains i) := by
    rw [hmirrors.batches, hmirrors.dispatched]
    rw [Bool.or_eq_true]
    obtain hbatch | ⟨row, hrow, _⟩ := hi
    · exact .inl hbatch
    · exact .inr (by rw [ExtTreeMap.contains_eq_isSome_getElem?, hrow, Option.isSome_some])
  have hown : live.accumulator.OwnRow i := by
    intro row hrow
    obtain hbatch | ⟨own, hown, hnonce⟩ := hi
    · obtain ⟨phase, hphase⟩ := hphased i
      have hnone : live.accumulator.dispatched[i]? = none := by
        cases phase with
        | absent | pending => exact hphase.2
        | dispatched =>
            rw [ExtTreeMap.mem_iff_isSome_getElem?, hphase.1] at hbatch
            cases hbatch
      rw [hnone] at hrow
      cases hrow
    · rw [hown] at hrow
      cases hrow
      exact hnonce
  rw [← hsignatures i hown]
  simp only [loaded, withDb]
  rw [getElem?_filter_key, if_pos hknown]

/-- A batch that was dispatched, bumped and included, one that is signed, one that
somebody else dispatched, and one that is not registered yet. -/
theorem restart_reproduces_sample :
    let resp : SubmitBatchResponse := ⟨[1], [], [2]⟩
    let ops : List Operation :=
      [.setBatch 1 1 2, .insertResponse ⟨1, .zero, .zero, .zero 64⟩, .markBatchSubmitted 1,
        .setBatch 2 3 4, .setBatch 3 5 6, .markBatchSubmitted 4, .signed 1 resp,
        .purgeResponses [1, 2], .markDispatched 1 .zero 0 7 100 10,
        .recordRbfBump 1 (.ofNat 1) 120 12, .recordDispatchedL1Block 1 50, .signed 2 resp,
        .markDispatchedExternal 3 (.ofNat 2) 51]
    let loaded := (withDb (ops.foldl Store.perform .empty).db).1
    loaded.dispatched[1]? = some ⟨1, 2, .ofNat 1, 50, some 7, some 120, some 12⟩ ∧
      loaded.signatures[2]? = some resp := by
  intro resp ops loaded
  obtain ⟨_, _, _, hdispatched, hsignatures⟩ := restart_reproduces ops (by decide)
  refine ⟨(congrArg (·[1]?) hdispatched).trans (by decide +kernel), ?_⟩
  exact (hsignatures 2 (.inl (by decide +kernel))).trans (by decide +kernel)

section Lifecycle

/-- What happens to a store: an operation, or the end of the process and a new start. -/
inductive StoreEvent where
  | operation (op : Operation)
  | restart
deriving DecidableEq

def StoreEvent.Fits : StoreEvent → Prop
  | operation op => op.Fits
  | restart => True

instance (event : StoreEvent) : Decidable event.Fits :=
  match event with
  | .operation op => inferInstanceAs (Decidable op.Fits)
  | .restart => isTrue trivial

namespace Store

def handle (s : Store) : StoreEvent → Store
  | .operation op => s.perform op
  | .restart => s.restart

/-- The event makes `finalize_dispatched` forget batch `i`. -/
def Forgets (i : Nat) (s : Store) (event : StoreEvent) : Prop :=
  event = .operation (.finalizeDispatched i) ∧ i ∈ s.accumulator.dispatched

/-- None of the events forgets batch `i`. -/
def Keeps (i : Nat) : Store → List StoreEvent → Prop
  | _, [] => True
  | s, event :: events => ¬s.Forgets i event ∧ (s.handle event).Keeps i events

variable {s : Store} {i : Nat} {event : StoreEvent} {phase : Phase}

theorem Consistent.handle (h : s.Consistent) (hfits : event.Fits) : (s.handle event).Consistent :=
  match event with
  | .operation _ => h.perform hfits
  | .restart => h.restart

/-- Events move batches along their phases. A restart moves none. -/
theorem Consistent.handle_phase (h : s.Consistent) (event : StoreEvent)
    (hphase : s.accumulator.InPhase i phase) :
    ∃ next, (s.handle event).accumulator.InPhase i next ∧
      (phase = next ∨ ∃ op, event = .operation op ∧ Phase.Step i op phase next) := by
  cases event with
  | operation op =>
      obtain ⟨next, hstep, hnext⟩ := op.apply_phase hphase
      exact ⟨next, hnext, .inr ⟨op, rfl, hstep⟩⟩
  | restart =>
      refine ⟨phase, hphase.congr ?_ ?_, .inl rfl⟩
      · simp only [Store.handle, Store.restart, withDb, h.mirrors.batches]
      · simp only [Store.handle, Store.restart, withDb, h.mirrors.dispatched]

/-- Until it is forgotten a batch keeps its range, and an external one stays external. -/
theorem Consistent.handle_kept (h : s.Consistent) (hphase : s.accumulator.InPhase i phase)
    (hknown : phase ≠ .absent) (hkept : ¬s.Forgets i event) :
    ∃ next, (s.handle event).accumulator.InPhase i next ∧ next ≠ .absent ∧
      next.range = phase.range ∧ (phase.External → next.External) := by
  obtain ⟨next, hnext, rfl | ⟨op, rfl, hstep⟩⟩ := h.handle_phase event hphase
  · exact ⟨phase, hnext, hknown, rfl, id⟩
  · have hnext_known : next ≠ .absent := by
      rintro rfl
      obtain ⟨rfl, row, rfl⟩ := hstep.eq_finalize hknown
      refine hkept ⟨rfl, ?_⟩
      rw [ExtTreeMap.mem_iff_isSome_getElem?, hphase.2, Option.isSome_some]
    exact ⟨next, hnext, hnext_known, hstep.range_eq hknown hnext_known,
      fun hexternal => hstep.external_of_external hexternal hnext_known⟩

theorem Consistent.run_kept {events : List StoreEvent} (h : s.Consistent)
    (hfits : ∀ event ∈ events, event.Fits) (hphase : s.accumulator.InPhase i phase)
    (hknown : phase ≠ .absent) (hkept : s.Keeps i events) :
    ∃ next, (events.foldl Store.handle s).accumulator.InPhase i next ∧
      next.range = phase.range ∧ (phase.External → next.External) := by
  induction events generalizing s phase with
  | nil => exact ⟨phase, hphase, rfl, id⟩
  | cons event events ih =>
      obtain ⟨middle, hmiddle, hmiddle_known, hrange, hexternal⟩ :=
        h.handle_kept hphase hknown hkept.1
      obtain ⟨next, hnext, hnext_range, hnext_external⟩ :=
        ih (h.handle (hfits event (.head _)))
          (fun event hevent => hfits event (.tail _ hevent)) hmiddle hmiddle_known
          hkept.2
      exact ⟨next, hnext, hnext_range.trans hrange, fun he => hnext_external (hexternal he)⟩

theorem consistent_handled {events : List StoreEvent} (hfits : ∀ event ∈ events, event.Fits) :
    (events.foldl handle empty).Consistent := by
  have hrun : ∀ s : Store, s.Consistent → (events.foldl handle s).Consistent := by
    induction events with
    | nil => exact fun _ h => h
    | cons event events ih =>
        intro s h
        exact ih (fun event hevent => hfits event (.tail _ hevent)) _
          (h.handle (hfits event (.head _)))
  exact hrun empty .empty

end Store

/-- The life of every batch, over every sequence of operations and restarts whose numbers are
SQLite integers. The last event may be any. -/
theorem batch_lifecycle (earlier later : List StoreEvent) (event : StoreEvent) (i : Nat)
    (hearlier : ∀ event ∈ earlier, event.Fits) (hlater : ∀ event ∈ later, event.Fits) :
    let s := earlier.foldl Store.handle .empty
    let t := later.foldl Store.handle s
    -- a batch is not pending and dispatched at once
    ¬(i ∈ s.accumulator.batches ∧ i ∈ s.accumulator.dispatched) ∧
    -- `set_batch` registers an unknown batch with its range
    (∀ fromBlock toBlock, s.accumulator.range i = none →
      (s.perform (.setBatch i fromBlock toBlock)).accumulator.range i =
        some (fromBlock, toBlock)) ∧
    -- the range stays until `finalize_dispatched` forgets the batch
    (∀ range, s.accumulator.range i = some range → s.Keeps i later →
      t.accumulator.range i = some range) ∧
    -- nothing else forgets it, and `finalize_dispatched` returns the range
    (∀ range, s.accumulator.range i = some range →
      (s.handle event).accumulator.range i = none →
      event = .operation (.finalizeDispatched i) ∧
        (s.accumulator.finalizeDispatched i).2.map DispatchedBatch.range = some range) ∧
    -- until then an external row stays where it is
    (∀ row, s.accumulator.dispatched[i]? = some row → row.nonce = none → s.Keeps i later →
      i ∉ t.accumulator.batches ∧
        ∃ row', t.accumulator.dispatched[i]? = some row' ∧ row'.nonce = none) := by
  intro s t
  have h : s.Consistent := Store.consistent_handled hearlier
  obtain ⟨phase, hphase⟩ := h.phased i
  refine ⟨hphase.not_both, fun _ _ hrange => range_setBatch hrange _ _, ?_, ?_, ?_⟩
  · intro range hrange hkeeps
    obtain ⟨next, hnext, heq, _⟩ :=
      h.run_kept hlater hphase (hphase.known_iff.mpr ⟨_, hrange⟩) hkeeps
    rw [hnext.range_eq, heq, ← hphase.range_eq, hrange]
  · intro range hrange hnone
    have hknown := hphase.known_iff.mpr ⟨_, hrange⟩
    obtain ⟨next, hnext, hstep⟩ := h.handle_phase event hphase
    have habsent : next = .absent := by
      by_contra hne
      obtain ⟨other, hother⟩ := hnext.known_iff.mp hne
      rw [hnone] at hother
      cases hother
    subst habsent
    obtain rfl | ⟨op, rfl, hstep⟩ := hstep
    · exact absurd rfl hknown
    · obtain ⟨rfl, row, rfl⟩ := hstep.eq_finalize hknown
      refine ⟨rfl, ?_⟩
      rw [← hrange, hphase.range_eq]
      simp [finalizeDispatched, hphase.2, DispatchedBatch.range, Phase.range]
  · intro row hrow hnonce hkeeps
    have hrow_phase : phase = .dispatched row := by
      cases phase <;> simp_all [BatchAccumulator.InPhase]
    subst hrow_phase
    obtain ⟨next, hnext, _, hexternal⟩ := h.run_kept hlater hphase (by simp) hkeeps
    cases next with
    | absent | pending => exact (hexternal hnonce).elim
    | dispatched row' =>
        refine ⟨?_, row', hnext.2, hexternal hnonce⟩
        rw [ExtTreeMap.mem_iff_isSome_getElem?, hnext.1]
        simp

/-- A batch that is dispatched, taken back after a restart, preconfirmed by somebody else
and finalized after another restart. -/
theorem batch_lifecycle_sample :
    let ops : List StoreEvent :=
      [.operation (.setBatch 1 10 19), .operation (.markDispatched 1 .zero 0 7 100 10), .restart,
        .operation (.undispatch 1), .operation (.markDispatchedExternal 1 (.ofNat 1) 50)]
    let s := ops.foldl Store.handle .empty
    let t := [StoreEvent.restart, .operation (.undispatch 1)].foldl Store.handle s
    s.accumulator.range 1 = some (10, 19) ∧ 1 ∉ t.accumulator.batches ∧
      t.accumulator.range 1 = some (10, 19) ∧
      (s.accumulator.finalizeDispatched 1).2.map DispatchedBatch.range = some (10, 19) := by
  intro ops s t
  have hrange : s.accumulator.range 1 = some (10, 19) := by decide +kernel
  have hkeeps : s.Keeps 1 [.restart, .operation (.undispatch 1)] := by
    simp [Store.Keeps, Store.Forgets]
  obtain ⟨_, _, hkept, hforgotten, hexternal⟩ :=
    batch_lifecycle ops [.restart, .operation (.undispatch 1)]
      (.operation (.finalizeDispatched 1)) 1
      (by decide) (by decide)
  exact ⟨hrange, (hexternal ⟨10, 19, .ofNat 1, 50, none, none, none⟩ (by decide +kernel) rfl
    hkeeps).1, hkept _ hrange hkeeps, (hforgotten _ hrange (by decide +kernel)).2⟩

/-- A batch index that is no SQLite integer is never stored: the process that registered
the batch knows it, the next one does not. -/
theorem batch_lost_by_restart :
    let s := Store.empty.perform (.setBatch (2 ^ 63) 1 1)
    s.accumulator.range (2 ^ 63) = some (1, 1) ∧
      (s.handle .restart).accumulator.range (2 ^ 63) = none := by
  decide +kernel

end Lifecycle

end FluentStf.Orchestrator
