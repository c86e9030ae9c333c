import FluentStf.Orchestrator.Accumulator

/-! The life of one batch: registered, pending, dispatched, forgotten. The accumulator
moves every batch along these phases only. -/
namespace FluentStf.Orchestrator

open Std

/-- The blocks of a dispatched batch. -/
def DispatchedBatch.range (row : DispatchedBatch) : Nat × Nat := (row.fromBlock, row.toBlock)

/-- The row of batch `i` names this transaction and this L1 block. -/
def RowHolds (table : ExtTreeMap Nat DispatchedBatch) (i : Nat) (txHash : B256)
    (l1Block : Nat) : Prop :=
  table[i]?.map (fun row => (row.txHash, row.l1Block)) = some (txHash, l1Block)

/-- Where a batch is in its life. A forgotten batch is absent again. -/
inductive Phase where
  | absent
  | pending (batch : PendingBatch)
  | dispatched (row : DispatchedBatch)
deriving DecidableEq

namespace Phase

/-- The block range that the batch was registered with. -/
def range : Phase → Option (Nat × Nat)
  | absent => none
  | pending batch => some (batch.fromBlock, batch.toBlock)
  | dispatched row => some (row.fromBlock, row.toBlock)

/-- Dispatched by a transaction that the process does not own. -/
def External : Phase → Prop
  | dispatched row => row.nonce = none
  | _ => False

/-- Dispatched by a transaction of this process or an earlier one. -/
def Own : Phase → Prop
  | dispatched row => row.nonce ≠ none
  | _ => False

/-- What an operation can do to batch `i`. -/
inductive Step (i : Nat) : Operation → Phase → Phase → Prop
  | stay (op : Operation) (phase : Phase) : Step i op phase phase
  | register (fromBlock toBlock : Nat) (blobsAccepted : Bool) :
      Step i (.setBatch i fromBlock toBlock) .absent (.pending ⟨fromBlock, toBlock, blobsAccepted⟩)
  | submit (batch : PendingBatch) :
      Step i (.markBatchSubmitted i) (.pending batch)
        (.pending { batch with blobsAccepted := true })
  | dispatch (batch : PendingBatch) (txHash : B256) (l1Block nonce fee tip : Nat) :
      Step i (.markDispatched i txHash l1Block nonce fee tip) (.pending batch)
        (.dispatched ⟨batch.fromBlock, batch.toBlock, txHash, l1Block, some nonce, some fee,
          some tip⟩)
  | external (batch : PendingBatch) (txHash : B256) (l1Block : Nat) :
      Step i (.markDispatchedExternal i txHash l1Block) (.pending batch)
        (.dispatched ⟨batch.fromBlock, batch.toBlock, txHash, l1Block, none, none, none⟩)
  | bump (row : DispatchedBatch) (txHash : B256) (fee tip : Nat) :
      Step i (.recordRbfBump i txHash fee tip) (.dispatched row)
        (.dispatched { row with
          txHash := txHash, maxFeePerGas := some fee, maxPriorityFeePerGas := some tip })
  | land (row : DispatchedBatch) (l1Block : Nat) :
      Step i (.recordDispatchedL1Block i l1Block) (.dispatched row)
        (.dispatched { row with l1Block := l1Block })
  | finalize (row : DispatchedBatch) : Step i (.finalizeDispatched i) (.dispatched row) .absent
  | undispatch (row : DispatchedBatch) (hown : row.nonce ≠ none) :
      Step i (.undispatch i) (.dispatched row) (.pending ⟨row.fromBlock, row.toBlock, true⟩)

namespace Step

variable {i : Nat} {op : Operation} {before after : Phase}

/-- The range is kept until the batch is forgotten. -/
theorem range_eq (h : Step i op before after) (hbefore : before ≠ .absent)
    (hafter : after ≠ .absent) : after.range = before.range := by
  cases h with
  | register => exact absurd rfl hbefore
  | finalize => exact absurd rfl hafter
  | stay | submit | dispatch | external | bump | land | undispatch => rfl

/-- A batch is forgotten by `finalize_dispatched` only. -/
theorem eq_finalize (h : Step i op before .absent) (hbefore : before ≠ .absent) :
    op = .finalizeDispatched i ∧ ∃ row, before = .dispatched row := by
  cases h with
  | stay => exact absurd rfl hbefore
  | finalize row => exact ⟨rfl, row, rfl⟩

/-- External rows stay external until they are forgotten. -/
theorem external_of_external (h : Step i op before after) (hbefore : before.External)
    (hafter : after ≠ .absent) : after.External := by
  cases h with
  | stay | bump | land => exact hbefore
  | finalize => exact absurd rfl hafter
  | undispatch _ hown => exact absurd hbefore hown
  | register | submit | dispatch | external => exact hbefore.elim

/-- A batch becomes the own of the process when its worker has broadcast. -/
theorem own_before (h : Step i op before after) (hafter : after.Own) :
    before.Own ∨ (∃ tx l1 nonce fee tip, op = .markDispatched i tx l1 nonce fee tip) ∧
      ∃ batch, before = .pending batch := by
  cases h with
  | stay | bump | land => exact .inl hafter
  | dispatch batch tx l1 nonce fee tip => exact .inr ⟨⟨tx, l1, nonce, fee, tip, rfl⟩, batch, rfl⟩
  | external => exact absurd rfl hafter
  | register | submit | finalize | undispatch => exact hafter.elim

/-- A batch becomes pending when it is registered or undispatched. -/
theorem pending_before {batch : PendingBatch} (h : Step i op before (.pending batch)) :
    (∃ batch, before = .pending batch) ∨ (∃ first last, op = .setBatch i first last) ∨
      op = .undispatch i := by
  cases h with
  | stay => exact .inl ⟨batch, rfl⟩
  | submit batch => exact .inl ⟨batch, rfl⟩
  | register first last => exact .inr (.inl ⟨first, last, rfl⟩)
  | undispatch => exact .inr (.inr rfl)

end Step

end Phase

/-- The accumulator holds batch `i` in this phase. -/
def BatchAccumulator.InPhase (acc : BatchAccumulator) (i : Nat) : Phase → Prop
  | .absent => acc.batches[i]? = none ∧ acc.dispatched[i]? = none
  | .pending batch => acc.batches[i]? = some batch ∧ acc.dispatched[i]? = none
  | .dispatched row => acc.batches[i]? = none ∧ acc.dispatched[i]? = some row

namespace BatchAccumulator

variable {acc acc' : BatchAccumulator} {i j : Nat} {phase : Phase}

/-- Only the two lookups matter. -/
theorem InPhase.congr (h : acc.InPhase i phase) (hbatches : acc'.batches[i]? = acc.batches[i]?)
    (hdispatched : acc'.dispatched[i]? = acc.dispatched[i]?) : acc'.InPhase i phase := by
  cases phase <;> exact ⟨hbatches ▸ h.1, hdispatched ▸ h.2⟩

theorem InPhase.unique {other : Phase} (h : acc.InPhase i phase) (hother : acc.InPhase i other) :
    phase = other := by
  cases phase <;> cases other <;> simp_all [InPhase]

/-- The range of a batch that is pending or dispatched. -/
def range (acc : BatchAccumulator) (i : Nat) : Option (Nat × Nat) :=
  match acc.batches[i]? with
  | some batch => some (batch.fromBlock, batch.toBlock)
  | none => acc.dispatched[i]?.map DispatchedBatch.range

theorem range_eq_none_iff :
    acc.range i = none ↔ acc.batches[i]? = none ∧ acc.dispatched[i]? = none := by
  unfold range
  cases acc.batches[i]? <;> simp

theorem InPhase.range_eq (h : acc.InPhase i phase) : acc.range i = phase.range := by
  cases phase <;> simp [range, h.1, h.2, Phase.range, DispatchedBatch.range]

theorem InPhase.not_both (h : acc.InPhase i phase) : ¬(i ∈ acc.batches ∧ i ∈ acc.dispatched) := by
  rw [ExtTreeMap.mem_iff_isSome_getElem?, ExtTreeMap.mem_iff_isSome_getElem?]
  cases phase <;> simp [h.1, h.2]

theorem InPhase.known_iff (h : acc.InPhase i phase) :
    phase ≠ .absent ↔ ∃ range, acc.range i = some range := by
  rw [h.range_eq]
  cases phase <;> simp [Phase.range]

/-- An unknown batch is registered. -/
theorem range_setBatch (h : acc.range i = none) (fromBlock toBlock : Nat) :
    (acc.setBatch i fromBlock toBlock).1.range i = some (fromBlock, toBlock) := by
  have hbatches : acc.batches[i]? = none := by
    cases hbatch : acc.batches[i]? with
    | none => rfl
    | some batch => simp [range, hbatch] at h
  have hdispatched : acc.dispatched[i]? = none := by simpa [range, hbatches] using h
  have hnew : (acc.dispatched.contains i || acc.batches.contains i) = false := by
    rw [ExtTreeMap.contains_eq_isSome_getElem?, ExtTreeMap.contains_eq_isSome_getElem?,
      hbatches, hdispatched]
    rfl
  simp [setBatch, hnew, range]

theorem inPhase_new (i : Nat) : BatchAccumulator.new.InPhase i .absent := by
  simp [InPhase, new]

/-- The batch that is dispatched next is pending and signed. -/
theorem firstSequentialSigned_some {signature : Bytes}
    (h : acc.firstSequentialSigned = some (i, signature)) :
    (∃ batch, acc.batches[i]? = some batch) ∧ ∃ resp, acc.signatures[i]? = some resp := by
  unfold firstSequentialSigned at h
  split at h
  · cases h
  · next j batch hhead =>
      obtain ⟨resp, hresp, heq⟩ := Option.map_eq_some_iff.mp h
      cases heq
      refine ⟨⟨batch, ?_⟩, resp, hresp⟩
      exact ExtTreeMap.mem_toList_iff_getElem?_eq_some.mp (List.mem_of_head? hhead)

end BatchAccumulator

namespace Operation

/-- The batch that an operation is about. -/
def batchIndex? : Operation → Option Nat
  | insertResponse _ | purgeResponses _ => none
  | setBatch i _ _ | markBatchSubmitted i | signed i _ | deleteBatchSignature i
  | markDispatched i _ _ _ _ _ | markDispatchedExternal i _ _ | recordRbfBump i _ _ _
  | recordDispatchedL1Block i _ | finalizeDispatched i | undispatch i => some i

variable {acc : BatchAccumulator} {i : Nat} {phase : Phase}

/-- Other batches are left alone. -/
theorem apply_frame (acc : BatchAccumulator) {op : Operation} (h : op.batchIndex? ≠ some i) :
    (op.apply acc).1.batches[i]? = acc.batches[i]? ∧
      (op.apply acc).1.dispatched[i]? = acc.dispatched[i]? ∧
      (op.apply acc).1.signatures[i]? = acc.signatures[i]? := by
  cases op with
  | insertResponse | purgeResponses => exact ⟨rfl, rfl, rfl⟩
  | setBatch j =>
      have hij : j ≠ i := by simpa [batchIndex?] using h
      simp only [apply, BatchAccumulator.setBatch]
      split <;> simp [ExtTreeMap.getElem?_insert, hij]
  | markBatchSubmitted j =>
      have hij : j ≠ i := by simpa [batchIndex?] using h
      simp only [apply, BatchAccumulator.markBatchSubmitted]
      split <;> simp [ExtTreeMap.getElem?_modify, hij]
  | signed j | deleteBatchSignature j | recordRbfBump j | recordDispatchedL1Block j =>
      have hij : j ≠ i := by simpa [batchIndex?] using h
      simp [apply, BatchAccumulator.cacheSignature, BatchAccumulator.deleteBatchSignature,
        BatchAccumulator.recordRbfBump, BatchAccumulator.recordDispatchedL1Block,
        ExtTreeMap.getElem?_modify, ExtTreeMap.getElem?_insert,
        ExtTreeMap.getElem?_erase, hij]
  | markDispatched j | markDispatchedExternal j =>
      have hij : j ≠ i := by simpa [batchIndex?] using h
      simp only [apply, BatchAccumulator.markDispatched, BatchAccumulator.markDispatchedExternal]
      split <;> simp [ExtTreeMap.getElem?_insert, ExtTreeMap.getElem?_erase, hij]
  | finalizeDispatched j =>
      have hij : j ≠ i := by simpa [batchIndex?] using h
      simp only [apply, BatchAccumulator.finalizeDispatched]
      split <;> simp [ExtTreeMap.getElem?_erase, hij]
  | undispatch j =>
      have hij : j ≠ i := by simpa [batchIndex?] using h
      simp only [apply, BatchAccumulator.undispatch]
      split
      · simp
      · split <;> simp [ExtTreeMap.getElem?_insert, ExtTreeMap.getElem?_erase, hij]

/-- Every operation moves every batch along its phases. -/
theorem apply_phase (op : Operation) (h : acc.InPhase i phase) :
    ∃ next, Phase.Step i op phase next ∧ (op.apply acc).1.InPhase i next := by
  by_cases hop : op.batchIndex? = some i
  · cases op with
    | insertResponse | purgeResponses => cases hop
    | signed | deleteBatchSignature => exact ⟨phase, .stay _ _, h.congr rfl rfl⟩
    | setBatch j first last =>
        cases hop
        simp only [apply, BatchAccumulator.setBatch]
        split
        · exact ⟨phase, .stay _ _, h⟩
        · have habsent : phase = .absent := by
            cases phase <;> simp_all [BatchAccumulator.InPhase]
          subst habsent
          exact ⟨_, .register first last (acc.pendingBlobsAccepted.contains i),
            by simp, h.2⟩
    | markBatchSubmitted j =>
        cases hop
        simp only [apply, BatchAccumulator.markBatchSubmitted]
        split
        · cases phase with
          | pending batch =>
              exact ⟨_, .submit batch, by simp [h.1], h.2⟩
          | absent | dispatched => simp_all [BatchAccumulator.InPhase]
        · exact ⟨phase, .stay _ _, h.congr rfl rfl⟩
    | markDispatched j tx l1 nonce fee tip =>
        cases hop
        cases phase with
        | pending batch =>
            refine ⟨_, .dispatch batch tx l1 nonce fee tip, ?_⟩
            simp [apply, BatchAccumulator.markDispatched, BatchAccumulator.InPhase, h.1]
        | absent | dispatched =>
            refine ⟨_, .stay _ _, ?_⟩
            simpa [apply, BatchAccumulator.markDispatched, h.1] using h
    | markDispatchedExternal j tx l1 =>
        cases hop
        cases phase with
        | pending batch =>
            refine ⟨_, .external batch tx l1, ?_⟩
            simp [apply, BatchAccumulator.markDispatchedExternal, BatchAccumulator.InPhase, h.1]
        | absent | dispatched =>
            refine ⟨_, .stay _ _, ?_⟩
            simpa [apply, BatchAccumulator.markDispatchedExternal, h.1] using h
    | recordRbfBump j tx fee tip =>
        cases hop
        cases phase with
        | dispatched row => exact ⟨_, .bump row tx fee tip, h.1, by
            simp [apply, BatchAccumulator.recordRbfBump, h.2]⟩
        | absent | pending => exact ⟨_, .stay _ _, h.1, by
            simp [apply, BatchAccumulator.recordRbfBump, h.2]⟩
    | recordDispatchedL1Block j l1 =>
        cases hop
        cases phase with
        | dispatched row => exact ⟨_, .land row l1, h.1, by
            simp [apply, BatchAccumulator.recordDispatchedL1Block, h.2]⟩
        | absent | pending => exact ⟨_, .stay _ _, h.1, by
            simp [apply, BatchAccumulator.recordDispatchedL1Block, h.2]⟩
    | finalizeDispatched j =>
        cases hop
        cases phase with
        | dispatched row =>
            refine ⟨_, .finalize row, ?_⟩
            simp [apply, BatchAccumulator.finalizeDispatched, BatchAccumulator.InPhase, h.1, h.2]
        | absent | pending =>
            refine ⟨_, .stay _ _, ?_⟩
            simpa [apply, BatchAccumulator.finalizeDispatched, h.2] using h
    | undispatch j =>
        cases hop
        cases phase with
        | dispatched row =>
            by_cases hown : row.nonce = none
            · refine ⟨_, .stay _ _, ?_⟩
              simpa [apply, BatchAccumulator.undispatch, h.2, hown] using h
            · refine ⟨_, .undispatch row hown, ?_⟩
              simp [apply, BatchAccumulator.undispatch, BatchAccumulator.InPhase, h.2, hown]
        | absent | pending =>
            refine ⟨_, .stay _ _, ?_⟩
            simpa [apply, BatchAccumulator.undispatch, h.2] using h
  · obtain ⟨hbatches, hdispatched, _⟩ := apply_frame acc hop
    exact ⟨phase, .stay _ _, h.congr hbatches hdispatched⟩

/-- Nothing but `finalize_dispatched` forgets a batch, in whatever state it is. -/
theorem range_eq_none {op : Operation} (h : (op.apply acc).1.range i = none)
    (hop : op ≠ .finalizeDispatched i) : acc.range i = none := by
  rw [BatchAccumulator.range_eq_none_iff] at h ⊢
  by_cases hindex : op.batchIndex? = some i
  · cases op with
    | insertResponse | purgeResponses => cases hindex
    | signed | deleteBatchSignature => exact h
    | finalizeDispatched =>
        cases hindex
        exact absurd rfl hop
    | setBatch =>
        cases hindex
        simp only [apply, BatchAccumulator.setBatch] at h
        split at h
        · exact h
        · simp at h
    | markBatchSubmitted =>
        cases hindex
        simp only [apply, BatchAccumulator.markBatchSubmitted] at h
        split at h
        · simpa using h
        · exact h
    | recordRbfBump | recordDispatchedL1Block =>
        cases hindex
        simpa [apply, BatchAccumulator.recordRbfBump, BatchAccumulator.recordDispatchedL1Block]
          using h
    | markDispatched | markDispatchedExternal =>
        cases hindex
        simp only [apply, BatchAccumulator.markDispatched,
          BatchAccumulator.markDispatchedExternal] at h
        split at h
        · exact h
        · simp at h
    | undispatch =>
        cases hindex
        simp only [apply, BatchAccumulator.undispatch] at h
        split at h
        · exact h
        · split at h
          · exact h
          · simp at h
  · obtain ⟨hbatches, hdispatched, _⟩ := apply_frame acc hindex
    rwa [hbatches, hdispatched] at h

end Operation

/-- Every batch is in one phase. -/
def BatchAccumulator.Phased (acc : BatchAccumulator) : Prop := ∀ i, ∃ phase, acc.InPhase i phase

theorem BatchAccumulator.Phased.apply {acc : BatchAccumulator} (h : acc.Phased) (op : Operation) :
    (op.apply acc).1.Phased := by
  intro i
  obtain ⟨phase, hphase⟩ := h i
  obtain ⟨next, _, hnext⟩ := op.apply_phase hphase
  exact ⟨next, hnext⟩

end FluentStf.Orchestrator
