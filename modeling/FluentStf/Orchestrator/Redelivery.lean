import FluentStf.Orchestrator.Atomicity

/-! L1 events that are delivered again. A registered batch is recognised as long as it
is pending or dispatched, and a submitted one as long as it is pending or buffered. -/
namespace FluentStf.Orchestrator

open Std

/-- What is known of batches. -/
abbrev Registry :=
  ExtTreeMap Nat PendingBatch × ExtTreeMap Nat DispatchedBatch × ExtTreeSet Nat

def BatchAccumulator.registry (acc : BatchAccumulator) : Registry :=
  (acc.batches, acc.dispatched, acc.pendingBlobsAccepted)

def Db.registry (db : Db) : Registry :=
  (db.pendingBatches, db.dispatchedBatches, db.pendingBlobsAccepted)

namespace Store

/-- The operation changes no batch, neither in memory nor in the database. -/
def Harmless (s : Store) (op : Operation) : Prop :=
  (s.perform op).accumulator.registry = s.accumulator.registry ∧
    (s.perform op).db.registry = s.db.registry

/-- The batch is pending or dispatched. -/
def Known (s : Store) (i : Nat) : Prop := i ∈ s.accumulator.batches ∨ i ∈ s.accumulator.dispatched

/-- The batch is pending, or its `BatchSubmitted` waits for the registration. -/
def Awaited (s : Store) (i : Nat) : Prop :=
  i ∈ s.accumulator.batches ∨ i ∈ s.accumulator.pendingBlobsAccepted

end Store

/-- `BatchCommitted` was handled. -/
def Committed (i : Nat) (events : List StoreEvent) : Prop :=
  ∃ fromBlock toBlock, .operation (.setBatch i fromBlock toBlock) ∈ events

/-- `BatchSubmitted` was handled. -/
def Submitted (i : Nat) (events : List StoreEvent) : Prop :=
  .operation (.markBatchSubmitted i) ∈ events

/-- When `BatchCommitted` came again, the batch was still known. -/
def RecommitsKnown (i : Nat) (events : List StoreEvent) : Prop :=
  ∀ earlier later fromBlock toBlock,
    events = earlier ++ .operation (.setBatch i fromBlock toBlock) :: later →
      Committed i earlier → (earlier.foldl Store.handle .empty).Known i

section

variable {acc : BatchAccumulator} {op : Operation} {i : Nat}

/-- How a pending batch can have come about. -/
theorem Operation.pending_cases {batch : PendingBatch}
    (h : (op.apply acc).1.batches[i]? = some batch) :
    acc.batches[i]? = some batch ∨ batch.blobsAccepted = true ∨
      (∃ first last, op = .setBatch i first last) ∧ i ∉ acc.batches ∧ i ∉ acc.dispatched ∧
        batch.blobsAccepted = acc.pendingBlobsAccepted.contains i := by
  by_cases hop : op.batchIndex? = some i
  · cases op with
    | insertResponse | purgeResponses => cases hop
    | signed | deleteBatchSignature | recordRbfBump | recordDispatchedL1Block => exact .inl h
    | setBatch j first last =>
        cases hop
        simp only [apply, BatchAccumulator.setBatch] at h
        split at h
        · exact .inl h
        · next hnew =>
            rw [Bool.not_eq_true, Bool.or_eq_false_iff] at hnew
            simp only [ExtTreeMap.getElem?_insert_self, Option.some.injEq] at h
            refine .inr (.inr ⟨⟨first, last, rfl⟩, contains_eq_false_iff.mp hnew.2,
              contains_eq_false_iff.mp hnew.1, ?_⟩)
            rw [← h]
    | markBatchSubmitted j =>
        cases hop
        simp only [apply, BatchAccumulator.markBatchSubmitted] at h
        split at h
        · rw [ExtTreeMap.getElem?_modify_self, Option.map_eq_some_iff] at h
          obtain ⟨row, -, rfl⟩ := h
          exact .inr (.inl rfl)
        · exact .inl h
    | markDispatched j | markDispatchedExternal j =>
        cases hop
        simp only [apply, BatchAccumulator.markDispatched,
          BatchAccumulator.markDispatchedExternal] at h
        split at h
        · exact .inl h
        · simp at h
    | finalizeDispatched j =>
        cases hop
        simp only [apply, BatchAccumulator.finalizeDispatched] at h
        split at h <;> exact .inl h
    | undispatch j =>
        cases hop
        simp only [apply, BatchAccumulator.undispatch] at h
        split at h
        · exact .inl h
        · split at h
          · exact .inl h
          · simp only [ExtTreeMap.getElem?_insert_self, Option.some.injEq] at h
            exact .inr (.inl (by rw [← h]))
  · rw [(apply_frame acc hop).1] at h
    exact .inl h

/-- A buffered `BatchSubmitted` stays until the batch is registered. -/
theorem Operation.mem_pendingBlobsAccepted (op : Operation) (h : i ∈ acc.pendingBlobsAccepted) :
    i ∈ (op.apply acc).1.pendingBlobsAccepted ∨ ∃ first last, op = .setBatch i first last := by
  cases op with
  | insertResponse | purgeResponses | signed | deleteBatchSignature | recordRbfBump
  | recordDispatchedL1Block => exact .inl h
  | setBatch j first last =>
      by_cases hij : j = i
      · exact .inr ⟨first, last, by rw [hij]⟩
      · refine .inl ?_
        simp only [apply, BatchAccumulator.setBatch]
        split
        · exact h
        · simpa [hij] using h
  | markBatchSubmitted j =>
      refine .inl ?_
      simp only [apply, BatchAccumulator.markBatchSubmitted]
      split
      · exact h
      · exact ExtTreeSet.mem_insert.mpr (.inr h)
  | markDispatched | markDispatchedExternal =>
      refine .inl ?_
      simp only [apply, BatchAccumulator.markDispatched, BatchAccumulator.markDispatchedExternal]
      split <;> exact h
  | finalizeDispatched =>
      refine .inl ?_
      simp only [apply, BatchAccumulator.finalizeDispatched]
      split <;> exact h
  | undispatch =>
      refine .inl ?_
      simp only [apply, BatchAccumulator.undispatch]
      split
      · exact h
      · split <;> exact h

end

/-- What holds of a batch that was submitted: if it is pending it has its blobs, and
until it is registered it is buffered. -/
structure SubmissionKept (i : Nat) (events : List StoreEvent) (acc : BatchAccumulator) : Prop where
  pending : ∀ batch, acc.batches[i]? = some batch → batch.blobsAccepted = true
  buffered : ¬Committed i events → i ∈ acc.pendingBlobsAccepted

section

variable {i : Nat} {events : List StoreEvent} {s : Store} {event : StoreEvent}

theorem RecommitsKnown.init (h : RecommitsKnown i (events ++ [event])) :
    RecommitsKnown i events := by
  intro earlier later first last heq
  exact h earlier (later ++ [event]) first last (by rw [heq]; simp)

theorem Committed.snoc (h : Committed i events) : Committed i (events ++ [event]) := by
  obtain ⟨first, last, hmem⟩ := h
  exact ⟨first, last, List.mem_append_left _ hmem⟩

/-- One more operation. -/
theorem SubmissionKept.operation {op : Operation} {acc : BatchAccumulator}
    (h : SubmissionKept i events acc)
    (hknown : ∀ first last, op = .setBatch i first last → Committed i events →
      i ∈ acc.batches ∨ i ∈ acc.dispatched) :
    SubmissionKept i (events ++ [.operation op]) (op.apply acc).1 := by
  constructor
  · intro batch hbatch
    rcases Operation.pending_cases hbatch with
      hold | htrue | ⟨⟨first, last, rfl⟩, hnew, hnew', hflag⟩
    · exact h.pending batch hold
    · exact htrue
    · have hfirst : ¬Committed i events := by
        intro hcommitted
        rcases hknown first last rfl hcommitted with hmem | hmem
        · exact hnew hmem
        · exact hnew' hmem
      rw [hflag]
      exact ExtTreeSet.contains_iff_mem.mpr (h.buffered hfirst)
  · intro hnot
    have hmem := h.buffered fun hcommitted => hnot hcommitted.snoc
    rcases op.mem_pendingBlobsAccepted hmem with hmem | ⟨first, last, rfl⟩
    · exact hmem
    · exact absurd ⟨first, last, by simp⟩ hnot

theorem SubmissionKept.submitted {acc : BatchAccumulator}
    (hcommitted : i ∈ acc.batches → Committed i events) :
    SubmissionKept i (events ++ [.operation (.markBatchSubmitted i)])
      (acc.markBatchSubmitted i).1 := by
  unfold BatchAccumulator.markBatchSubmitted
  split
  · next hpending =>
      constructor
      · intro batch hbatch
        rw [ExtTreeMap.getElem?_modify_self, Option.map_eq_some_iff] at hbatch
        obtain ⟨row, -, rfl⟩ := hbatch
        rfl
      · have hprior := hcommitted (ExtTreeMap.mem_iff_contains.mpr hpending)
        exact fun hnot => absurd hprior.snoc hnot
  · next hpending =>
      constructor
      · intro batch hbatch
        rw [ExtTreeMap.contains_eq_isSome_getElem?, hbatch] at hpending
        exact absurd rfl hpending
      · exact fun _ => ExtTreeSet.mem_insert_self

/-- A batch that was not registered is unknown. -/
theorem inPhase_absent (hfits : ∀ event ∈ events, event.Fits) (h : ¬Committed i events) :
    (events.foldl Store.handle .empty).accumulator.InPhase i .absent := by
  induction events using List.reverseRecOn with
  | nil => exact BatchAccumulator.inPhase_new i
  | append_singleton events event ih =>
      have hearlier : ∀ event ∈ events, event.Fits :=
        fun event hevent => hfits event (List.mem_append_left _ hevent)
      rw [List.foldl_append]
      have habsent := ih hearlier fun hcommitted => h hcommitted.snoc
      obtain ⟨next, hnext, rfl | ⟨op, rfl, hstep⟩⟩ :=
        (Store.consistent_handled hearlier).handle_phase event habsent
      · exact hnext
      · cases hstep with
        | stay => exact hnext
        | register first last => exact absurd ⟨first, last, by simp⟩ h

theorem committed_of_pending (hfits : ∀ event ∈ events, event.Fits)
    (h : i ∈ (events.foldl Store.handle .empty).accumulator.batches) : Committed i events := by
  by_contra hnot
  rw [ExtTreeMap.mem_iff_isSome_getElem?, (inPhase_absent hfits hnot).1] at h
  cases h

/-- The invariant holds in every run in which registrations come again only while the
batch is known. -/
theorem submissionKept (hfits : ∀ event ∈ events, event.Fits) (hrecommits : RecommitsKnown i events)
    (h : Submitted i events) :
    SubmissionKept i events (events.foldl Store.handle .empty).accumulator := by
  induction events using List.reverseRecOn with
  | nil => cases h
  | append_singleton events event ih =>
      have hearlier : ∀ event ∈ events, event.Fits :=
        fun event hevent => hfits event (List.mem_append_left _ hevent)
      have hconsistent := Store.consistent_handled hearlier
      rw [List.foldl_append, List.foldl_cons, List.foldl_nil]
      by_cases hsubmitted : Submitted i events
      · have hkept := ih hearlier hrecommits.init hsubmitted
        cases event with
        | operation op =>
            refine hkept.operation fun first last hop hcommitted => ?_
            subst hop
            exact hrecommits events [] first last rfl hcommitted
        | restart =>
            have htables := hconsistent.mirrors
            constructor
            · simpa only [Store.handle, Store.restart, BatchAccumulator.withDb, htables.batches]
                using hkept.pending
            · intro hnot
              simpa only [Store.handle, Store.restart, BatchAccumulator.withDb,
                htables.blobsAccepted] using hkept.buffered fun hcommitted => hnot hcommitted.snoc
      · have hevent : event = .operation (.markBatchSubmitted i) := by
          rcases List.mem_append.mp h with hmem | hmem
          · exact absurd hmem hsubmitted
          · exact (List.mem_singleton.mp hmem).symm
        subst hevent
        exact .submitted (committed_of_pending hearlier)

end

section

variable {s : Store} {i : Nat}

/-- The database follows the memory. -/
theorem Store.harmless_iff {op : Operation} (hmirrors : Mirrors s.accumulator s.db)
    (hfits : op.Fits) :
    s.Harmless op ↔ (op.apply s.accumulator).1.registry = s.accumulator.registry := by
  have hregistry : ∀ {acc : BatchAccumulator} {db : Db}, Mirrors acc db →
      db.registry = acc.registry := by
    intro acc db h
    rw [Db.registry, BatchAccumulator.registry, h.batches, h.dispatched, h.blobsAccepted]
  have hafter : (s.perform op).db.registry = (op.apply s.accumulator).1.registry :=
    hregistry (hmirrors.apply hfits)
  rw [Harmless, hafter, hregistry hmirrors]
  exact and_self_iff

/-- A second registration does nothing exactly while the batch is known. -/
theorem registry_setBatch_iff {acc : BatchAccumulator} (fromBlock toBlock : Nat) :
    (acc.setBatch i fromBlock toBlock).1.registry = acc.registry ↔
      i ∈ acc.batches ∨ i ∈ acc.dispatched := by
  constructor
  · intro h
    by_contra hunknown
    rw [not_or] at hunknown
    have hnew : (acc.dispatched.contains i || acc.batches.contains i) = false := by
      rw [Bool.or_eq_false_iff]
      exact ⟨contains_eq_false_iff.mpr hunknown.2, contains_eq_false_iff.mpr hunknown.1⟩
    simp only [BatchAccumulator.registry, BatchAccumulator.setBatch, hnew, Bool.false_eq_true,
      if_false, Prod.mk.injEq] at h
    rw [← h.1] at hunknown
    simp at hunknown
  · intro hknown
    have hold : (acc.dispatched.contains i || acc.batches.contains i) = true := by
      rw [Bool.or_eq_true]
      exact hknown.symm.imp ExtTreeMap.mem_iff_contains.mp ExtTreeMap.mem_iff_contains.mp
    rw [BatchAccumulator.setBatch, if_pos hold]

/-- A second `BatchSubmitted` does nothing if the batch is pending with its blobs or
itself is still buffered. -/
theorem registry_markBatchSubmitted_iff {acc : BatchAccumulator}
    (hpending : ∀ batch, acc.batches[i]? = some batch → batch.blobsAccepted = true) :
    (acc.markBatchSubmitted i).1.registry = acc.registry ↔
      i ∈ acc.batches ∨ i ∈ acc.pendingBlobsAccepted := by
  unfold BatchAccumulator.markBatchSubmitted
  split
  · next hbatch =>
      refine iff_of_true ?_ (.inl (ExtTreeMap.mem_iff_contains.mpr hbatch))
      have hsame : acc.batches.modify i ({ · with blobsAccepted := true }) = acc.batches := by
        refine ExtTreeMap.ext_getElem? fun n => ?_
        rw [ExtTreeMap.getElem?_modify]
        split
        · next heq =>
            cases LawfulEqCmp.eq_of_compare heq
            cases hrow : acc.batches[i]? with
            | none => rfl
            | some batch => simp [← hpending batch hrow]
        · rfl
      rw [BatchAccumulator.registry, hsame, BatchAccumulator.registry]
  · next hbatch =>
      rw [or_iff_right (fun hmem => hbatch (ExtTreeMap.mem_iff_contains.mp hmem))]
      simp only [BatchAccumulator.registry, Prod.mk.injEq, true_and]
      constructor
      · intro h
        rw [← h]
        exact ExtTreeSet.mem_insert_self
      · intro hmem
        refine ExtTreeSet.ext_mem fun n => ?_
        rw [ExtTreeSet.mem_insert]
        refine or_iff_right_of_imp fun heq => ?_
        rwa [← LawfulEqCmp.eq_of_compare heq]

end

/-- When an event for a batch comes again, `BatchCommitted` is harmless exactly while
the batch is pending or dispatched, and `BatchSubmitted` exactly while the batch is
pending or the first one still buffered. -/
theorem redelivery_harmless_iff (events : List StoreEvent) (i : Nat)
    (hfits : ∀ event ∈ events, event.Fits) (hrecommits : RecommitsKnown i events) :
    let s := events.foldl Store.handle .empty
    (∀ fromBlock toBlock, .operation (.setBatch i fromBlock toBlock) ∈ events →
      (s.Harmless (.setBatch i fromBlock toBlock) ↔ s.Known i)) ∧
    (Submitted i events → (s.Harmless (.markBatchSubmitted i) ↔ s.Awaited i)) := by
  intro s
  have hmirrors : Mirrors s.accumulator s.db := (Store.consistent_handled hfits).mirrors
  constructor
  · intro first last hmem
    rw [Store.harmless_iff hmirrors (hfits _ hmem)]
    exact registry_setBatch_iff first last
  · intro hsubmitted
    rw [Store.harmless_iff hmirrors (hfits _ hsubmitted)]
    exact registry_markBatchSubmitted_iff (submissionKept hfits hrecommits hsubmitted).pending

/-- Batch 1 is registered, submitted and sent: `BatchCommitted` may come again. -/
theorem redelivery_harmless_dispatched :
    let events : List StoreEvent := [.operation (.setBatch 1 1 2),
      .operation (.markBatchSubmitted 1), .operation (.markDispatched 1 .zero 0 7 100 10)]
    (events.foldl Store.handle .empty).Harmless (.setBatch 1 1 2) := by
  intro events
  have hrecommits : RecommitsKnown 1 events := by
    intro earlier later first last heq hcommitted
    cases earlier with
    | nil =>
        obtain ⟨_, _, hmem⟩ := hcommitted
        cases hmem
    | cons event earlier =>
        have hmem : StoreEvent.operation (.setBatch 1 first last) ∈ events.tail := by
          rw [heq]
          simp
        simp [events] at hmem
  exact ((redelivery_harmless_iff events 1 (by decide) hrecommits).1 1 2 (by decide)).mpr
    (.inr (by decide +kernel))

/-- The events of batch 1 up to its finalization. -/
def wholeLife : List StoreEvent :=
  [.operation (.setBatch 1 1 2), .operation (.markBatchSubmitted 1),
    .operation (.markDispatched 1 .zero 0 7 100 10), .operation (.finalizeDispatched 1)]

/-- After the finalization `BatchCommitted` registers the batch again, and
`BatchSubmitted` is buffered for a batch that will not come. -/
theorem redelivery_after_finalization :
    let s := wholeLife.foldl Store.handle .empty
    (s.perform (.setBatch 1 1 2)).accumulator.batches[1]? = some ⟨1, 2, false⟩ ∧
      1 ∈ (s.perform (.markBatchSubmitted 1)).db.pendingBlobsAccepted ∧
      ¬s.Harmless (.setBatch 1 1 2) ∧ ¬s.Harmless (.markBatchSubmitted 1) := by
  intro s
  refine ⟨by decide +kernel, by decide +kernel, fun h => ?_, fun h => ?_⟩
  · exact absurd (congrArg (fun registry => registry.1[1]?) h.1) (by decide +kernel)
  · exact absurd (congrArg (fun registry => registry.2.2.contains 1) h.1) (by decide +kernel)

end FluentStf.Orchestrator
