import FluentStf.Orchestrator.Lifecycle
import FluentStf.Orchestrator.Loop

/-! What one turn of the main loop does: to the accumulator and the database a list of
actions, and to the dispatch gate at most one new worker. -/
namespace FluentStf.Orchestrator

open Std

open Nitro (SubmitBatchResponse)

/-- The steps that a handler is made of, as far as they reach the accumulator or the
database. -/
inductive Action where
  | operation (op : Operation)
  | cacheSignature (batchIndex : Nat) (resp : SubmitBatchResponse)
  | persist (write : Write)
deriving DecidableEq

namespace Action

def apply (acc : BatchAccumulator) : Action → Update
  | operation op => op.apply acc
  | cacheSignature batchIndex resp => (acc.cacheSignature batchIndex resp, [])
  | persist write => (acc, [write])

/-- The accumulator after some actions, with all writes. -/
def run (acc : BatchAccumulator) : List Action → Update
  | [] => (acc, [])
  | action :: actions =>
      let first := action.apply acc
      let rest := run first.1 actions
      (rest.1, first.2 ++ rest.2)

theorem run_append (acc : BatchAccumulator) (first second : List Action) :
    run acc (first ++ second) =
      ((run (run acc first).1 second).1,
        (run acc first).2 ++ (run (run acc first).1 second).2) := by
  induction first generalizing acc with
  | nil => rfl
  | cons action first ih => simp only [List.cons_append, run, ih, List.append_assoc]

end Action

namespace OrchestratorState

variable (s : OrchestratorState)

theorem trySignNextBatch_eq : ∃ signing, ∃ tasks : List Task,
    s.trySignNextBatch = { s with signingBatch := signing, spawned := s.spawned ++ tasks } ∧
      ∀ task ∈ tasks, ∃ i first last responses, task = .signBatch i first last responses := by
  unfold trySignNextBatch
  split
  · exact ⟨s.signingBatch, [], by simp⟩
  · split
    · exact ⟨s.signingBatch, [], by simp⟩
    · split
      · exact ⟨s.signingBatch, [], by simp⟩
      · exact ⟨_, _, rfl, by simp⟩

/-- A worker is spawned for the first pending batch if the gate is open. -/
theorem tryDispatchNextBatch_cases (now : Nat) :
    s.tryDispatchNextBatch now = s ∨
      ∃ i signature, s.dispatchingBatch = none ∧ s.pendingKeyCheck = none ∧
        s.accumulator.firstSequentialSigned = some (i, signature) ∧
        s.tryDispatchNextBatch now = { s with
          dispatchingBatch := some i
          spawned := s.spawned ++ [.rbfWorker i signature none] } := by
  unfold tryDispatchNextBatch
  split
  · exact .inl rfl
  · next hgate =>
      split
      · exact .inl rfl
      · split
        · exact .inl rfl
        · next hkey =>
            split
            · exact .inl rfl
            · next i signature hfirst =>
                exact .inr ⟨i, signature, by simpa using hgate, by simpa using hkey, hfirst, rfl⟩

/-- Signing starts a task, and nothing else changes. -/
@[simp] theorem trySignNextBatch_frame : s.trySignNextBatch.accumulator = s.accumulator ∧
    s.trySignNextBatch.writes = s.writes ∧
    s.trySignNextBatch.dispatchingBatch = s.dispatchingBatch ∧
    s.trySignNextBatch.pendingKeyCheck = s.pendingKeyCheck := by
  obtain ⟨_, _, h, _⟩ := s.trySignNextBatch_eq
  rw [h]
  exact ⟨rfl, rfl, rfl, rfl⟩

@[simp] theorem clearGate_frame (i : Nat) : (s.clearGate i).accumulator = s.accumulator ∧
    (s.clearGate i).writes = s.writes ∧ (s.clearGate i).spawned = s.spawned ∧
    (s.clearGate i).pendingKeyCheck = s.pendingKeyCheck := by
  unfold clearGate
  split <;> exact ⟨rfl, rfl, rfl, rfl⟩

@[simp] theorem tryDispatchNextBatch_frame (now : Nat) :
    (s.tryDispatchNextBatch now).accumulator = s.accumulator ∧
      (s.tryDispatchNextBatch now).writes = s.writes ∧
      (s.tryDispatchNextBatch now).pendingKeyCheck = s.pendingKeyCheck := by
  obtain h | ⟨_, _, _, _, _, h⟩ := s.tryDispatchNextBatch_cases now <;> rw [h] <;>
    exact ⟨rfl, rfl, rfl⟩

/-- The actions of one observation of a finalization check. -/
def observationActions (acc : BatchAccumulator) : Nat × B256 × ReceiptCheck → List Action
  | (batchIndex, _, .found) => match acc.dispatched[batchIndex]? with
    | none => []
    | some row =>
        [.operation (.finalizeDispatched batchIndex), .persist (.saveLastBatchEnd row.toBlock)]
  | (batchIndex, txHash, .reverted _) =>
      if acc.dispatchedTxHash batchIndex ≠ some txHash then []
      else [.operation (.undispatch batchIndex)]
  | (_, _, .missing) | (_, _, .checkFailed) => []

def finalizationActions (acc : BatchAccumulator) : List (Nat × B256 × ReceiptCheck) → List Action
  | [] => []
  | observation :: observations =>
      let actions := observationActions acc observation
      actions ++ finalizationActions (Action.run acc actions).1 observations

/-- The result is dropped: a duplicate, or a block that is finalized already. -/
def drops (result : BlockResult) : Bool :=
  s.knownResponses.contains result.blockNumber || s.lastBatchEnd.any (result.blockNumber ≤ ·)

/-- The watermark after a new result. -/
def advanced (result : BlockResult) : Nat × ExtTreeSet Nat :=
  let confirmed := s.confirmed.insert result.blockNumber
  advance confirmed.size s.checkpoint confirmed

/-- A new result is stored and the watermark moves. -/
def accept (result : BlockResult) : OrchestratorState :=
  { s.update (s.accumulator.insertResponse result.response) with
    knownResponses := s.knownResponses.insert result.blockNumber
    checkpoint := (s.advanced result).1
    confirmed := (s.advanced result).2 }.persist (.saveCheckpoint (s.advanced result).1)

theorem onBlockResult_eq (now : Nat) (result : BlockResult) :
    s.onBlockResult now result =
      if s.drops result then s
      else (s.accept result).trySignNextBatch.tryDispatchNextBatch now := by
  unfold onBlockResult drops
  by_cases hknown : s.knownResponses.contains result.blockNumber
  · simp only [hknown, if_true, Bool.true_or]
  · simp only [hknown, Bool.false_eq_true, if_false, Bool.false_or]
    rfl

/-- The actions of the handler of a message. -/
def actions : Message → List Action
  | .finalizationTick => []
  | .finalizationDone (.observed observations) => finalizationActions s.accumulator observations
  | .finalizationDone .noOp | .finalizationDone .taskFailed => []
  | .blockResult result =>
      if s.drops result then []
      else [.operation (.insertResponse result.response),
        .persist (.saveCheckpoint (s.advanced result).1)]
  | .l1Event (.batchCommitted i fromBlock toBlock) => [.operation (.setBatch i fromBlock toBlock)]
  | .l1Event (.batchSubmitted i) => [.operation (.markBatchSubmitted i)]
  | .l1Event (.batchPreconfirmed i txHash l1Block) =>
      [.operation (.markDispatchedExternal i txHash l1Block)]
  | .l1Event (.checkpoint l1Block) => [.persist (.saveL1Checkpoint l1Block)]
  | .l1Event (.batchReverted i l1Block) => [.persist (.wipeForRevert i (l1Block + 1))]
  | .signDone i (.signed response) =>
      .cacheSignature i response :: match s.accumulator.batches[i]? with
        | none => []
        | some batch => [.operation (.purgeResponses (blocks batch.fromBlock batch.toBlock))]
  | .signDone i (.invalidSignatures invalidBlocks _) =>
      [.operation (.purgeResponses invalidBlocks), .operation (.deleteBatchSignature i)]
  | .signDone _ .taskFailed => []
  | .dispatchDone i (.submitted _ l1Block) => [.operation (.recordDispatchedL1Block i l1Block)]
  | .dispatchDone i (.alreadyPreconfirmed txHash l1Block) =>
      [.operation (.markDispatchedExternal i txHash l1Block)]
  | .dispatchDone i (.reverted _ _) | .dispatchDone i .failed | .dispatchDone i .taskFailed =>
      [.operation (.undispatch i)]
  | .rbfBump i (.initialBroadcast txHash nonce fee tip) =>
      [.operation (.markDispatched i txHash 0 nonce fee tip)]
  | .rbfBump i (.bumped txHash fee tip) => [.operation (.recordRbfBump i txHash fee tip)]
  | .rbfBump _ (.capReached _) => []
  | .keyCheckDone _ _ => []

/-- `s'` comes from `s` by these actions, up to the other fields. -/
def Performs (actions : List Action) (s' : OrchestratorState) : Prop :=
  s'.accumulator = (Action.run s.accumulator actions).1 ∧
    s'.writes = s.writes ++ (Action.run s.accumulator actions).2

variable {s} {s' s'' : OrchestratorState}

theorem Performs.trans {first second : List Action} (h : s.Performs first s')
    (h' : s'.Performs second s'') : s.Performs (first ++ second) s'' := by
  rw [Performs, Action.run_append]
  rw [Performs, h.1] at h'
  exact ⟨h'.1, by rw [h'.2, h.2, List.append_assoc]⟩

theorem applyObservation_performs (out : FinalizationApplyOutcome)
    (observation : Nat × B256 × ReceiptCheck) :
    s.Performs (observationActions s.accumulator observation)
      (applyObservation (s, out) observation).1 := by
  obtain ⟨i, txHash, check⟩ := observation
  cases check with
  | found =>
      cases hrow : s.accumulator.dispatched[i]? <;>
        simp [applyObservation, observationActions, BatchAccumulator.finalizeDispatched, hrow,
          Performs, Action.run, Action.apply, Operation.apply, update, persist]
  | reverted kind =>
      by_cases hstale : s.accumulator.dispatchedTxHash i = some txHash <;>
        simp [applyObservation, observationActions, hstale, Performs, Action.run, Action.apply,
          Operation.apply, update]
  | missing | checkFailed =>
      simp [applyObservation, observationActions, Performs, Action.run]

theorem applyObservations_performs (out : FinalizationApplyOutcome)
    (observations : List (Nat × B256 × ReceiptCheck)) :
    s.Performs (finalizationActions s.accumulator observations)
      (observations.foldl applyObservation (s, out)).1 := by
  induction observations generalizing s out with
  | nil => simp [finalizationActions, Performs, Action.run]
  | cons observation observations ih =>
      have hfirst := applyObservation_performs (s := s) out observation
      rw [List.foldl_cons, finalizationActions, ← hfirst.1]
      exact hfirst.trans (ih _)

/-- What follows the observations in `on_finalization_done`. -/
def followUp (now : Nat) (progress : OrchestratorState × FinalizationApplyOutcome) :
    OrchestratorState :=
  let s := if progress.2.backoffLogic then progress.1.applyDispatchBackoff now else progress.1
  if progress.2.changed then s.trySignNextBatch.tryDispatchNextBatch now else s

theorem onFinalizationDone_eq (now : Nat) (done : FinalizationDone) :
    s.onFinalizationDone now done =
      followUp now ({ s with finalizationInFlight := false }.applyFinalizationChanges done) := rfl

theorem followUp_accumulator (now : Nat) (progress : OrchestratorState × FinalizationApplyOutcome) :
    (followUp now progress).accumulator = progress.1.accumulator ∧
      (followUp now progress).writes = progress.1.writes := by
  unfold followUp
  split <;> split <;> simp [applyDispatchBackoff]

theorem onFinalizationDone_performs (now : Nat) (done : FinalizationDone) :
    s.Performs (s.actions (.finalizationDone done)) (s.onFinalizationDone now done) := by
  rw [onFinalizationDone_eq, Performs, (followUp_accumulator now _).1,
    (followUp_accumulator now _).2]
  cases done with
  | noOp | taskFailed => simp [actions, applyFinalizationChanges, Action.run]
  | observed observations =>
      exact applyObservations_performs (s := { s with finalizationInFlight := false })
        ⟨false, false⟩ observations

/-- A handler performs its actions and nothing else. -/
theorem handle_performs (now : Nat) (message : Message) :
    s.Performs (s.actions message) (s.handle now message) := by
  cases message with
  | finalizationTick =>
      simp only [actions, handle, tryStartFinalization]
      split
      · simp [Performs, Action.run]
      · split <;> simp [Performs, Action.run, spawn]
  | finalizationDone done => exact onFinalizationDone_performs now done
  | blockResult result =>
      simp only [actions, handle, onBlockResult_eq]
      split
      · simp [Performs, Action.run]
      · simp [Performs, Action.run, Action.apply, Operation.apply, update, persist, accept]
  | l1Event event =>
      cases event <;> simp [actions, handle, onL1Event, Performs, Action.run, Action.apply,
        Operation.apply, update, persist, clearDispatchBackoff]
  | signDone i outcome =>
      cases outcome with
      | signed response =>
          simp only [actions, handle, onSignDone]
          cases hbatch : s.accumulator.batches[i]? <;>
            simp [hbatch, Performs, Action.run, Action.apply, Operation.apply, update,
              BatchAccumulator.cacheSignature]
      | invalidSignatures | taskFailed =>
          simp [actions, handle, onSignDone, Performs, Action.run, Action.apply, Operation.apply,
            update, spawn]
  | dispatchDone i outcome =>
      cases outcome with
      | reverted tx kind =>
          cases kind <;> simp [actions, handle, onDispatchDone, Performs, Action.run,
            Action.apply, Operation.apply, update, applyDispatchBackoff]
      | submitted | failed | alreadyPreconfirmed | taskFailed =>
          simp [actions, handle, onDispatchDone, Performs, Action.run, Action.apply,
            Operation.apply, update, applyDispatchBackoff, clearDispatchBackoff]
  | rbfBump i event =>
      cases event <;> simp [actions, handle, onRbfBump, Performs, Action.run, Action.apply,
        Operation.apply, update, clearDispatchBackoff]
  | keyCheckDone addr registered =>
      cases registered <;> simp [actions, handle, onKeyCheckDone, Performs, Action.run, spawn]

section Gate

/-- The batches that fresh workers were spawned for. -/
def freshWorkers (tasks : List Task) : List Nat :=
  tasks.filterMap fun
    | .rbfWorker batchIndex _ none => some batchIndex
    | _ => none

@[simp] theorem freshWorkers_append (first second : List Task) :
    freshWorkers (first ++ second) = freshWorkers first ++ freshWorkers second := by
  simp [freshWorkers]

/-- `s'` has this gate and spawned these workers, or the gate was open and a worker for
the first pending batch took it. -/
def Gated (gate : Option Nat) (workers : List Nat) (s' : OrchestratorState) : Prop :=
  (s'.dispatchingBatch = gate ∧ freshWorkers s'.spawned = workers) ∨
    ∃ i signature, gate = none ∧ s'.pendingKeyCheck = none ∧
      s'.accumulator.firstSequentialSigned = some (i, signature) ∧
      s'.dispatchingBatch = some i ∧ freshWorkers s'.spawned = workers ++ [i]

theorem trySignNextBatch_workers (s : OrchestratorState) :
    freshWorkers s.trySignNextBatch.spawned = freshWorkers s.spawned := by
  obtain ⟨_, tasks, h, htasks⟩ := s.trySignNextBatch_eq
  rw [h, freshWorkers_append]
  have hnone : freshWorkers tasks = [] := by
    rw [freshWorkers, List.filterMap_eq_nil_iff]
    intro task htask
    obtain ⟨_, _, _, _, rfl⟩ := htasks task htask
    rfl
  rw [hnone, List.append_nil]

theorem tryDispatchNextBatch_gated (s : OrchestratorState) (now : Nat) :
    Gated s.dispatchingBatch (freshWorkers s.spawned) (s.tryDispatchNextBatch now) := by
  obtain h | ⟨i, signature, hgate, hkey, hfirst, h⟩ := s.tryDispatchNextBatch_cases now
  · rw [h]
    exact .inl ⟨rfl, rfl⟩
  · rw [h]
    exact .inr ⟨i, signature, hgate, hkey, hfirst, rfl, freshWorkers_append _ _⟩

theorem trySign_tryDispatch_gated (s : OrchestratorState) (now : Nat) :
    Gated s.dispatchingBatch (freshWorkers s.spawned)
      (s.trySignNextBatch.tryDispatchNextBatch now) := by
  have h := tryDispatchNextBatch_gated s.trySignNextBatch now
  rwa [trySignNextBatch_workers, (trySignNextBatch_frame _).2.2.1] at h

/-- The gate after the outcome in the message, if there is one, was noted. -/
def gateAfter (s : OrchestratorState) : Message → Option Nat
  | .dispatchDone i _ => (s.clearGate i).dispatchingBatch
  | _ => s.dispatchingBatch

theorem applyObservations_gate (progress : OrchestratorState × FinalizationApplyOutcome)
    (observations : List (Nat × B256 × ReceiptCheck)) :
    (observations.foldl applyObservation progress).1.dispatchingBatch =
        progress.1.dispatchingBatch ∧
      (observations.foldl applyObservation progress).1.spawned = progress.1.spawned ∧
      (observations.foldl applyObservation progress).1.pendingKeyCheck =
        progress.1.pendingKeyCheck := by
  induction observations generalizing progress with
  | nil => exact ⟨rfl, rfl, rfl⟩
  | cons observation observations ih =>
      have hfirst : (applyObservation progress observation).1.dispatchingBatch =
            progress.1.dispatchingBatch ∧
          (applyObservation progress observation).1.spawned = progress.1.spawned ∧
          (applyObservation progress observation).1.pendingKeyCheck =
            progress.1.pendingKeyCheck := by
        obtain ⟨i, txHash, check⟩ := observation
        cases check with
        | found =>
            cases hrow : progress.1.accumulator.dispatched[i]? <;>
              simp [applyObservation, BatchAccumulator.finalizeDispatched, hrow, update, persist]
        | reverted kind =>
            by_cases hstale : progress.1.accumulator.dispatchedTxHash i = some txHash <;>
              simp [applyObservation, hstale, update]
        | missing | checkFailed => simp [applyObservation]
      rw [List.foldl_cons]
      obtain ⟨hgate, hspawned, hkey⟩ := ih (applyObservation progress observation)
      exact ⟨hgate.trans hfirst.1, hspawned.trans hfirst.2.1, hkey.trans hfirst.2.2⟩

theorem followUp_gated (now : Nat) (progress : OrchestratorState × FinalizationApplyOutcome) :
    Gated progress.1.dispatchingBatch (freshWorkers progress.1.spawned)
      (followUp now progress) := by
  have hbackoff : ∀ t : OrchestratorState, t.dispatchingBatch = progress.1.dispatchingBatch →
      t.spawned = progress.1.spawned →
      Gated progress.1.dispatchingBatch (freshWorkers progress.1.spawned)
        (if progress.2.changed then t.trySignNextBatch.tryDispatchNextBatch now else t) := by
    intro t hgate hspawned
    rw [← hgate, ← hspawned]
    split
    · exact trySign_tryDispatch_gated t now
    · exact .inl ⟨rfl, rfl⟩
  unfold followUp
  split <;> exact hbackoff _ rfl rfl

/-- A handler spawns a worker only through the gate. -/
theorem handle_gated (now : Nat) (message : Message) :
    Gated (s.gateAfter message) (freshWorkers s.spawned) (s.handle now message) := by
  cases message with
  | finalizationTick =>
      simp only [handle, tryStartFinalization, gateAfter]
      split
      · exact .inl ⟨rfl, rfl⟩
      · split
        · exact .inl ⟨rfl, rfl⟩
        · exact .inl ⟨rfl, by simp [spawn, freshWorkers]⟩
  | finalizationDone done =>
      have h := followUp_gated now
        ({ s with finalizationInFlight := false }.applyFinalizationChanges done)
      cases done with
      | noOp | taskFailed => exact h
      | observed observations =>
          obtain ⟨hgate, hspawned, _⟩ := applyObservations_gate
            ({ s with finalizationInFlight := false }, ⟨false, false⟩) observations
          simp only [applyFinalizationChanges, hgate, hspawned] at h
          exact h
  | blockResult result =>
      simp only [handle, onBlockResult_eq, gateAfter]
      split
      · exact .inl ⟨rfl, rfl⟩
      · exact trySign_tryDispatch_gated (s.accept result) now
  | l1Event event =>
      cases event with
      | batchPreconfirmed i txHash l1Block =>
          exact tryDispatchNextBatch_gated
            (s.update (s.accumulator.markDispatchedExternal i txHash l1Block)).clearDispatchBackoff
            now
      | batchCommitted | batchSubmitted | checkpoint | batchReverted => exact .inl ⟨rfl, rfl⟩
  | signDone i outcome =>
      cases outcome with
      | signed response =>
          simp only [handle, onSignDone, gateAfter]
          split
          · exact trySign_tryDispatch_gated _ now
          · exact trySign_tryDispatch_gated (update _ _) now
      | invalidSignatures invalidBlocks enclaveAddress =>
          refine .inl ⟨rfl, ?_⟩
          simp [handle, onSignDone, update, spawn, freshWorkers, List.filterMap_map]
      | taskFailed => exact .inl ⟨rfl, rfl⟩
  | dispatchDone i outcome =>
      have hworkers : freshWorkers s.spawned = freshWorkers (s.clearGate i).spawned := by
        rw [(clearGate_frame ..).2.2.1]
      rw [hworkers]
      cases outcome with
      | reverted tx kind =>
          cases kind with
          | oog => exact tryDispatchNextBatch_gated (update _ _) now
          | logic => exact .inl ⟨rfl, rfl⟩
      | submitted => exact tryDispatchNextBatch_gated (update _ _) now
      | alreadyPreconfirmed => exact tryDispatchNextBatch_gated (update _ _) now
      | failed | taskFailed => exact .inl ⟨rfl, rfl⟩
  | rbfBump i event => cases event <;> exact .inl ⟨rfl, rfl⟩
  | keyCheckDone addr registered =>
      cases registered with
      | true =>
          exact trySign_tryDispatch_gated
            { s with pendingKeyCheck := none, keyCheckAttempts := 0 } now
      | false => exact .inl ⟨rfl, by simp [handle, onKeyCheckDone, spawn, freshWorkers]⟩

/-- The key check that is pending after a message. -/
def keyCheckAfter (s : OrchestratorState) : Message → Option Address
  | .signDone _ (.invalidSignatures _ enclaveAddress) => some enclaveAddress
  | .keyCheckDone _ true => none
  | _ => s.pendingKeyCheck

theorem followUp_pendingKeyCheck (now : Nat)
    (progress : OrchestratorState × FinalizationApplyOutcome) :
    (followUp now progress).pendingKeyCheck = progress.1.pendingKeyCheck := by
  unfold followUp
  split <;> split <;> simp [applyDispatchBackoff]

theorem handle_pendingKeyCheck (now : Nat) (message : Message) :
    (s.handle now message).pendingKeyCheck = s.keyCheckAfter message := by
  cases message with
  | finalizationTick =>
      simp only [handle, tryStartFinalization, keyCheckAfter]
      split
      · rfl
      · split <;> rfl
  | finalizationDone done =>
      simp only [handle, onFinalizationDone_eq, followUp_pendingKeyCheck, keyCheckAfter]
      cases done with
      | noOp | taskFailed => rfl
      | observed observations => exact (applyObservations_gate _ observations).2.2
  | blockResult result =>
      simp only [handle, onBlockResult_eq, keyCheckAfter]
      split
      · rfl
      · simp [accept, update, persist]
  | l1Event event =>
      cases event <;> simp [handle, onL1Event, keyCheckAfter, update, persist, clearDispatchBackoff]
  | signDone i outcome =>
      cases outcome with
      | signed response =>
          simp only [handle, onSignDone, keyCheckAfter]
          split <;> simp [update]
      | invalidSignatures | taskFailed => simp [handle, onSignDone, keyCheckAfter, update, spawn]
  | dispatchDone i outcome =>
      cases outcome with
      | reverted tx kind =>
          cases kind <;> simp [handle, onDispatchDone, keyCheckAfter, update, applyDispatchBackoff]
      | submitted | failed | alreadyPreconfirmed | taskFailed =>
          simp [handle, onDispatchDone, keyCheckAfter, update, applyDispatchBackoff,
            clearDispatchBackoff]
  | rbfBump i event =>
      cases event <;> simp [handle, onRbfBump, keyCheckAfter, update, clearDispatchBackoff]
  | keyCheckDone addr registered =>
      cases registered <;> simp [handle, onKeyCheckDone, keyCheckAfter, spawn]

end Gate

section Progress

/-- What the loop remembers of executed and of finalized blocks. -/
structure Progress where
  checkpoint : Nat
  confirmed : ExtTreeSet Nat
  knownResponses : ExtTreeSet Nat
  lastBatchEnd : Option Nat
  shutdown : Bool

def progress (s : OrchestratorState) : Progress :=
  ⟨s.checkpoint, s.confirmed, s.knownResponses, s.lastBatchEnd, s.shutdown⟩

/-- The watermark with the confirmed blocks above it. -/
def watermark (s : OrchestratorState) : Nat × ExtTreeSet Nat := (s.checkpoint, s.confirmed)

def raiseEnd : Option Nat → Nat → Option Nat
  | some prev, toBlock => some (max prev toBlock)
  | none, toBlock => some toBlock

def forget (known : ExtTreeSet Nat) (blocks : List Nat) : ExtTreeSet Nat :=
  blocks.foldl (fun known b => known.erase b) known

/-- A batch is found final. -/
def Progress.finalize (progress : Progress) (row : DispatchedBatch) : Progress :=
  { progress with
    knownResponses := forget progress.knownResponses (blocks row.fromBlock row.toBlock)
    lastBatchEnd := raiseEnd progress.lastBatchEnd row.toBlock }

/-- The batch that an observation finds final. -/
def finalizedRow (acc : BatchAccumulator) : Nat × B256 × ReceiptCheck → Option DispatchedBatch
  | (batchIndex, _, .found) => acc.dispatched[batchIndex]?
  | (_, _, .reverted _) | (_, _, .missing) | (_, _, .checkFailed) => none

/-- The batches that the observations find final, in this order. -/
def finalizedRows (acc : BatchAccumulator) :
    List (Nat × B256 × ReceiptCheck) → List DispatchedBatch
  | [] => []
  | observation :: observations =>
      (finalizedRow acc observation).toList ++
        finalizedRows (Action.run acc (observationActions acc observation)).1 observations

@[simp] theorem trySignNextBatch_progress : s.trySignNextBatch.progress = s.progress := by
  obtain ⟨_, _, h, _⟩ := s.trySignNextBatch_eq
  rw [h]
  rfl

@[simp] theorem tryDispatchNextBatch_progress (now : Nat) :
    (s.tryDispatchNextBatch now).progress = s.progress := by
  obtain h | ⟨_, _, _, _, _, h⟩ := s.tryDispatchNextBatch_cases now <;> rw [h]
  rfl

@[simp] theorem clearGate_progress (i : Nat) : (s.clearGate i).progress = s.progress := by
  unfold clearGate
  split <;> rfl

@[simp] theorem update_progress (update : Update) : (s.update update).progress = s.progress := rfl

@[simp] theorem applyDispatchBackoff_progress (now : Nat) :
    (s.applyDispatchBackoff now).progress = s.progress := rfl

@[simp] theorem clearDispatchBackoff_progress : s.clearDispatchBackoff.progress = s.progress := rfl

theorem trySign_tryDispatch_progress (s : OrchestratorState) (now : Nat) :
    (s.trySignNextBatch.tryDispatchNextBatch now).progress = s.progress := by
  simp

theorem applyObservation_progress (out : FinalizationApplyOutcome)
    (observation : Nat × B256 × ReceiptCheck) :
    (applyObservation (s, out) observation).1.progress =
      (finalizedRow s.accumulator observation).toList.foldl Progress.finalize s.progress := by
  obtain ⟨i, txHash, check⟩ := observation
  cases check with
  | found =>
      cases hrow : s.accumulator.dispatched[i]? with
      | none => simp [applyObservation, finalizedRow, BatchAccumulator.finalizeDispatched, hrow]
      | some row =>
          cases hend : s.lastBatchEnd <;>
            simp [applyObservation, finalizedRow, BatchAccumulator.finalizeDispatched, hrow,
              progress, persist, update, Progress.finalize, forget, raiseEnd, hend]
  | reverted kind =>
      by_cases hstale : s.accumulator.dispatchedTxHash i = some txHash <;>
        simp [applyObservation, finalizedRow, hstale]
  | missing | checkFailed => rfl

theorem applyObservations_progress (s : OrchestratorState) (out : FinalizationApplyOutcome)
    (observations : List (Nat × B256 × ReceiptCheck)) :
    (observations.foldl applyObservation (s, out)).1.progress =
      (finalizedRows s.accumulator observations).foldl Progress.finalize s.progress := by
  induction observations generalizing s out with
  | nil => rfl
  | cons observation observations ih =>
      rw [List.foldl_cons, finalizedRows, List.foldl_append,
        ← (applyObservation_performs out observation).1, ← applyObservation_progress out]
      exact ih _ _

theorem followUp_progress (now : Nat) (result : OrchestratorState × FinalizationApplyOutcome) :
    (followUp now result).progress = result.1.progress := by
  unfold followUp
  split <;> split <;> simp

/-- Blocks are remembered by new results and by finalized batches, and responses that
have to be made again are forgotten. -/
def progressAfter (s : OrchestratorState) : Message → Progress
  | .blockResult result =>
      if s.drops result then s.progress
      else { s.progress with
        checkpoint := (s.advanced result).1
        confirmed := (s.advanced result).2
        knownResponses := s.knownResponses.insert result.blockNumber }
  | .finalizationDone (.observed observations) =>
      (finalizedRows s.accumulator observations).foldl Progress.finalize s.progress
  | .signDone _ (.invalidSignatures invalidBlocks _) =>
      { s.progress with knownResponses := forget s.knownResponses invalidBlocks }
  | .l1Event (.batchReverted _ _) => { s.progress with shutdown := true }
  | _ => s.progress

theorem handle_progress (now : Nat) (message : Message) :
    (s.handle now message).progress = s.progressAfter message := by
  cases message with
  | finalizationTick =>
      simp only [handle, tryStartFinalization]
      split
      · rfl
      · split <;> rfl
  | finalizationDone done =>
      simp only [handle, onFinalizationDone_eq]
      cases done with
      | noOp | taskFailed => rfl
      | observed observations =>
          exact (followUp_progress now _).trans (applyObservations_progress
            { s with finalizationInFlight := false } ⟨false, false⟩ observations)
  | blockResult result =>
      simp only [handle, onBlockResult_eq, progressAfter]
      split
      · rfl
      · exact trySign_tryDispatch_progress (s.accept result) now
  | l1Event event =>
      cases event with
      | batchPreconfirmed => simp [handle, onL1Event, progressAfter]
      | batchCommitted | batchSubmitted | checkpoint | batchReverted => rfl
  | signDone i outcome =>
      cases outcome with
      | signed response =>
          simp only [handle, onSignDone]
          split <;> exact trySign_tryDispatch_progress _ now
      | invalidSignatures | taskFailed => rfl
  | dispatchDone i outcome =>
      cases outcome with
      | reverted tx kind => cases kind <;> simp [handle, onDispatchDone, progressAfter]
      | submitted | failed | alreadyPreconfirmed | taskFailed =>
          simp [handle, onDispatchDone, progressAfter]
  | rbfBump i event => cases event <;> simp [handle, onRbfBump, progressAfter]
  | keyCheckDone addr registered =>
      cases registered with
      | true => exact trySign_tryDispatch_progress _ now
      | false => rfl

theorem finalize_watermark (rows : List DispatchedBatch) (progress : Progress) :
    (rows.foldl Progress.finalize progress).checkpoint = progress.checkpoint ∧
      (rows.foldl Progress.finalize progress).confirmed = progress.confirmed ∧
      (rows.foldl Progress.finalize progress).shutdown = progress.shutdown := by
  induction rows generalizing progress with
  | nil => exact ⟨rfl, rfl, rfl⟩
  | cons row rows ih => exact ih (progress.finalize row)

/-- The watermark moves over confirmed blocks only. -/
theorem advance_covers {rounds checkpoint b : Nat} {confirmed : ExtTreeSet Nat}
    (h : b ≤ (advance rounds checkpoint confirmed).1 ∨
      b ∈ (advance rounds checkpoint confirmed).2) :
    b ≤ checkpoint ∨ b ∈ confirmed := by
  induction rounds generalizing checkpoint confirmed with
  | zero => exact h
  | succ rounds ih =>
      rw [advance] at h
      split at h
      · next hnext =>
          obtain hle | hmem := ih h
          · obtain rfl | hlt := Nat.eq_or_lt_of_le hle
            · exact .inr hnext
            · exact .inl (Nat.lt_succ_iff.mp hlt)
          · exact .inr (ExtTreeSet.mem_of_mem_erase hmem)
      · exact h

theorem le_advance {rounds checkpoint : Nat} {confirmed : ExtTreeSet Nat} :
    checkpoint ≤ (advance rounds checkpoint confirmed).1 := by
  induction rounds generalizing checkpoint confirmed with
  | zero => exact le_rfl
  | succ rounds ih =>
      rw [advance]
      split
      · exact (Nat.le_succ checkpoint).trans ih
      · exact le_rfl

end Progress

end OrchestratorState

section Frame

/-- The message is about batch `i`. -/
def Message.About (i : Nat) : Message → Prop
  | finalizationDone (.observed observations) =>
      ∃ observation ∈ observations, observation.1 = i
  | l1Event (.batchCommitted j _ _) | l1Event (.batchSubmitted j)
  | l1Event (.batchPreconfirmed j _ _) | signDone j _ | dispatchDone j _ | rbfBump j _ => j = i
  | _ => False

def Action.batchIndex? : Action → Option Nat
  | operation op => op.batchIndex?
  | cacheSignature i _ => some i
  | persist _ => none

theorem Action.apply_frame {action : Action} {i : Nat} (acc : BatchAccumulator)
    (h : action.batchIndex? ≠ some i) :
    (action.apply acc).1.batches[i]? = acc.batches[i]? ∧
      (action.apply acc).1.dispatched[i]? = acc.dispatched[i]? ∧
      (action.apply acc).1.signatures[i]? = acc.signatures[i]? := by
  cases action with
  | operation op => exact op.apply_frame acc h
  | cacheSignature j resp =>
      have hij : j ≠ i := by simpa [batchIndex?] using h
      simp [apply, BatchAccumulator.cacheSignature, ExtTreeMap.getElem?_insert, hij]
  | persist => exact ⟨rfl, rfl, rfl⟩

theorem Action.run_frame {actions : List Action} {i : Nat} (acc : BatchAccumulator)
    (h : ∀ action ∈ actions, action.batchIndex? ≠ some i) :
    (run acc actions).1.batches[i]? = acc.batches[i]? ∧
      (run acc actions).1.dispatched[i]? = acc.dispatched[i]? ∧
      (run acc actions).1.signatures[i]? = acc.signatures[i]? := by
  induction actions generalizing acc with
  | nil => exact ⟨rfl, rfl, rfl⟩
  | cons action actions ih =>
      obtain ⟨hbatches, hdispatched, hsignatures⟩ :=
        action.apply_frame acc (h action (.head _))
      obtain ⟨hbatches', hdispatched', hsignatures'⟩ :=
        ih (action.apply acc).1 fun a ha => h a (.tail _ ha)
      exact ⟨hbatches'.trans hbatches, hdispatched'.trans hdispatched,
        hsignatures'.trans hsignatures⟩

/-- A batch is forgotten by `finalize_dispatched` only. -/
theorem Action.finalize_mem {acc : BatchAccumulator} {actions : List Action} {i : Nat}
    (hknown : acc.range i ≠ none) (hforgotten : (run acc actions).1.range i = none) :
    .operation (.finalizeDispatched i) ∈ actions := by
  induction actions generalizing acc with
  | nil => exact absurd hforgotten hknown
  | cons action actions ih =>
      by_cases hfirst : action = .operation (.finalizeDispatched i)
      · exact hfirst ▸ .head _
      · refine .tail _ (ih (fun hnone => hknown ?_) hforgotten)
        cases action with
        | operation op => exact op.range_eq_none hnone fun hop => hfirst (by rw [hop])
        | cacheSignature | persist => exact hnone

namespace OrchestratorState

/-- The actions that a message can have. -/
inductive Causes (acc : BatchAccumulator) : Message → Action → Prop
  | finalize {observations i txHash} (h : (i, txHash, .found) ∈ observations) :
      Causes acc (.finalizationDone (.observed observations)) (.operation (.finalizeDispatched i))
  | lastBatchEnd (observations n) :
      Causes acc (.finalizationDone (.observed observations)) (.persist (.saveLastBatchEnd n))
  | undispatch {observations i txHash kind} (h : (i, txHash, .reverted kind) ∈ observations) :
      Causes acc (.finalizationDone (.observed observations)) (.operation (.undispatch i))
  | response (result) :
      Causes acc (.blockResult result) (.operation (.insertResponse result.response))
  | checkpoint (result n) : Causes acc (.blockResult result) (.persist (.saveCheckpoint n))
  | committed (i first last) :
      Causes acc (.l1Event (.batchCommitted i first last)) (.operation (.setBatch i first last))
  | submitted (i) : Causes acc (.l1Event (.batchSubmitted i)) (.operation (.markBatchSubmitted i))
  | preconfirmed (i txHash l1Block) :
      Causes acc (.l1Event (.batchPreconfirmed i txHash l1Block))
        (.operation (.markDispatchedExternal i txHash l1Block))
  | polled (n) : Causes acc (.l1Event (.checkpoint n)) (.persist (.saveL1Checkpoint n))
  | wiped (i l1Block) :
      Causes acc (.l1Event (.batchReverted i l1Block)) (.persist (.wipeForRevert i (l1Block + 1)))
  | signature (i resp) : Causes acc (.signDone i (.signed resp)) (.cacheSignature i resp)
  | purge {i batch} (resp) (h : acc.batches[i]? = some batch) :
      Causes acc (.signDone i (.signed resp))
        (.operation (.purgeResponses (blocks batch.fromBlock batch.toBlock)))
  | invalid (i blocks addr) :
      Causes acc (.signDone i (.invalidSignatures blocks addr))
        (.operation (.purgeResponses blocks))
  | unsigned (i blocks addr) :
      Causes acc (.signDone i (.invalidSignatures blocks addr))
        (.operation (.deleteBatchSignature i))
  | landed (i txHash l1Block) :
      Causes acc (.dispatchDone i (.submitted txHash l1Block))
        (.operation (.recordDispatchedL1Block i l1Block))
  | already (i txHash l1Block) :
      Causes acc (.dispatchDone i (.alreadyPreconfirmed txHash l1Block))
        (.operation (.markDispatchedExternal i txHash l1Block))
  | reverted (i txHash kind) :
      Causes acc (.dispatchDone i (.reverted txHash kind)) (.operation (.undispatch i))
  | failed (i) : Causes acc (.dispatchDone i .failed) (.operation (.undispatch i))
  | taskFailed (i) : Causes acc (.dispatchDone i .taskFailed) (.operation (.undispatch i))
  | broadcast (i txHash nonce fee tip) :
      Causes acc (.rbfBump i (.initialBroadcast txHash nonce fee tip))
        (.operation (.markDispatched i txHash 0 nonce fee tip))
  | bumped (i txHash fee tip) :
      Causes acc (.rbfBump i (.bumped txHash fee tip))
        (.operation (.recordRbfBump i txHash fee tip))

/-- A finalization check finalizes or undispatches. -/
theorem causes_of_finalization {acc start : BatchAccumulator}
    {observations : List (Nat × B256 × ReceiptCheck)} {action : Action}
    (h : action ∈ finalizationActions acc observations) :
    Causes start (.finalizationDone (.observed observations)) action := by
  induction observations generalizing acc with
  | nil => cases h
  | cons observation observations ih =>
      rw [finalizationActions, List.mem_append] at h
      obtain h | h := h
      · obtain ⟨i, txHash, check⟩ := observation
        cases check with
        | found =>
            simp only [observationActions] at h
            split at h
            · cases h
            · simp only [List.mem_cons, List.not_mem_nil, or_false] at h
              obtain rfl | rfl := h
              · exact .finalize (.head _)
              · exact .lastBatchEnd ..
        | reverted kind =>
            simp only [observationActions] at h
            split at h
            · cases h
            · cases List.mem_singleton.mp h
              exact .undispatch (.head _)
        | missing | checkFailed => cases h
      · cases ih h with
        | finalize hmem => exact .finalize (.tail _ hmem)
        | lastBatchEnd => exact .lastBatchEnd ..
        | undispatch hmem => exact .undispatch (.tail _ hmem)

theorem causes_of_mem {s : OrchestratorState} {message : Message} {action : Action}
    (h : action ∈ s.actions message) : Causes s.accumulator message action := by
  cases message with
  | finalizationDone done =>
      cases done with
      | observed observations => exact causes_of_finalization h
      | noOp | taskFailed => cases h
  | blockResult result =>
      simp only [actions] at h
      split at h
      · cases h
      · simp only [List.mem_cons, List.not_mem_nil, or_false] at h
        obtain rfl | rfl := h
        · exact .response ..
        · exact .checkpoint ..
  | l1Event event => cases event <;> cases List.mem_singleton.mp h <;> constructor
  | signDone i outcome =>
      cases outcome with
      | signed resp =>
          simp only [actions, List.mem_cons] at h
          obtain rfl | h := h
          · exact .signature ..
          · split at h
            · cases h
            · next batch hbatch =>
                cases List.mem_singleton.mp h
                exact .purge resp hbatch
      | invalidSignatures =>
          simp only [actions, List.mem_cons, List.not_mem_nil, or_false] at h
          obtain rfl | rfl := h
          · exact .invalid ..
          · exact .unsigned ..
      | taskFailed => cases h
  | dispatchDone i outcome => cases outcome <;> cases List.mem_singleton.mp h <;> constructor
  | rbfBump i event =>
      cases event with
      | initialBroadcast | bumped =>
          cases List.mem_singleton.mp h
          constructor
      | capReached => cases h
  | finalizationTick | keyCheckDone => cases h

/-- A message about other batches has no action on this one. -/
theorem actions_frame {s : OrchestratorState} {message : Message} {i : Nat}
    (h : ¬message.About i) : ∀ action ∈ s.actions message, action.batchIndex? ≠ some i := by
  intro action haction hindex
  cases causes_of_mem haction with
  | finalize hmem | undispatch hmem => exact h ⟨_, hmem, Option.some.inj hindex⟩
  | lastBatchEnd | response | checkpoint | polled | wiped | purge | invalid => cases hindex
  | committed | submitted | preconfirmed | signature | unsigned | landed | already | reverted
  | failed | taskFailed | broadcast | bumped => exact h (Option.some.inj hindex)

/-- An observation of batch `j` does not change the transaction of batch `i`, but it may
remove the row. -/
theorem dispatchedTxHash_observation {acc : BatchAccumulator} {i j : Nat} {txHash tx : B256}
    {check : ReceiptCheck}
    (hcheck : ∀ kind, j = i → check = .reverted kind → acc.dispatchedTxHash i ≠ some txHash)
    (h : (Action.run acc (observationActions acc (j, txHash, check))).1.dispatchedTxHash i =
      some tx) : acc.dispatchedTxHash i = some tx := by
  by_cases hij : j = i
  · subst hij
    cases check with
    | found =>
        cases hrow : acc.dispatched[j]? with
        | none => simpa [observationActions, hrow, Action.run] using h
        | some row =>
            simp [observationActions, hrow, Action.run, Action.apply, Operation.apply,
              BatchAccumulator.finalizeDispatched, BatchAccumulator.dispatchedTxHash] at h
    | reverted kind => simpa [observationActions, hcheck kind rfl rfl, Action.run] using h
    | missing | checkFailed => exact h
  · have hframe : ∀ action ∈ observationActions acc (j, txHash, check),
        action.batchIndex? ≠ some i := by
      cases check with
      | found =>
          cases hrow : acc.dispatched[j]? <;>
            simp [observationActions, hrow, Action.batchIndex?, Operation.batchIndex?, hij]
      | reverted kind =>
          by_cases hstale : acc.dispatchedTxHash j = some txHash <;>
            simp [observationActions, hstale, Action.batchIndex?, Operation.batchIndex?, hij]
      | missing | checkFailed => simp [observationActions]
    rwa [BatchAccumulator.dispatchedTxHash, (Action.run_frame acc hframe).2.1] at h

/-- A batch is undispatched only if its current transaction was observed to have
reverted. -/
theorem undispatch_notMem_finalizationActions {acc : BatchAccumulator} {i : Nat}
    {observations : List (Nat × B256 × ReceiptCheck)}
    (h : ∀ txHash kind, (i, txHash, .reverted kind) ∈ observations →
      acc.dispatchedTxHash i ≠ some txHash) :
    .operation (.undispatch i) ∉ finalizationActions acc observations := by
  induction observations generalizing acc with
  | nil => simp [finalizationActions]
  | cons observation observations ih =>
      obtain ⟨j, txHash, check⟩ := observation
      have hcheck : ∀ kind, j = i → check = .reverted kind →
          acc.dispatchedTxHash i ≠ some txHash := by
        rintro kind rfl rfl
        exact h txHash kind (.head _)
      rw [finalizationActions, List.mem_append, not_or]
      refine ⟨?_, ih fun tx kind hmem hcurrent => h tx kind (.tail _ hmem)
        (dispatchedTxHash_observation hcheck hcurrent)⟩
      cases check with
      | found => cases hrow : acc.dispatched[j]? <;> simp [observationActions, hrow]
      | reverted kind =>
          intro hmem
          simp only [observationActions] at hmem
          split at hmem
          · cases hmem
          · next hcurrent =>
              cases List.mem_singleton.mp hmem
              exact hcheck kind rfl rfl (not_not.mp hcurrent)
      | missing | checkFailed => simp [observationActions]

end OrchestratorState

end Frame

namespace Process

open OrchestratorState

variable (p : Process) (now : Nat) (message : Message)

theorem turn_accumulator : (p.turn now message).state.accumulator =
    (Action.run p.state.accumulator (p.state.actions message)).1 :=
  (handle_performs (s := { p.state with writes := [], spawned := [] }) now
    message).1.trans (by cases message <;> rfl)

theorem turn_writes : (p.turn now message).state.writes =
    (Action.run p.state.accumulator (p.state.actions message)).2 :=
  (handle_performs (s := { p.state with writes := [], spawned := [] }) now
    message).2.trans (by cases message <;> rfl)

theorem turn_db : (p.turn now message).db =
    p.db.applyAll (Action.run p.state.accumulator (p.state.actions message)).2 :=
  congrArg p.db.applyAll (p.turn_writes now message)

theorem turn_progress : (p.turn now message).state.progress = p.state.progressAfter message :=
  (handle_progress (s := { p.state with writes := [], spawned := [] }) now message).trans
    (by cases message <;> rfl)

/-- Only a new block result moves the watermark. -/
theorem turn_watermark : (p.turn now message).state.watermark = match message with
    | .blockResult result =>
        if p.state.drops result then p.state.watermark else p.state.advanced result
    | _ => p.state.watermark := by
  have hprogress := congrArg
    (fun progress : Progress => (progress.checkpoint, progress.confirmed))
    (p.turn_progress now message)
  refine Eq.trans ?_ (hprogress.trans ?_)
  · rfl
  · cases message with
    | blockResult result =>
        simp only [progressAfter]
        split <;> rfl
    | finalizationDone done =>
        cases done with
        | observed observations =>
            obtain ⟨hcheckpoint, hconfirmed, -⟩ := finalize_watermark
              (finalizedRows p.state.accumulator observations) p.state.progress
            simp only [progressAfter, hcheckpoint, hconfirmed]
            rfl
        | noOp | taskFailed => rfl
    | l1Event event => cases event <;> rfl
    | signDone i outcome => cases outcome <;> rfl
    | finalizationTick | dispatchDone | rbfBump | keyCheckDone => rfl

/-- Messages about other batches do not touch this one. -/
theorem turn_frame {i : Nat} (h : ¬message.About i) :
    (p.turn now message).state.accumulator.batches[i]? = p.state.accumulator.batches[i]? ∧
      (p.turn now message).state.accumulator.dispatched[i]? =
        p.state.accumulator.dispatched[i]? ∧
      (p.turn now message).state.accumulator.signatures[i]? =
        p.state.accumulator.signatures[i]? := by
  rw [turn_accumulator]
  exact Action.run_frame _ (actions_frame h)

theorem turn_gated : Gated (p.state.gateAfter message) []
    (p.turn now message).state := by
  have h := handle_gated (s := { p.state with writes := [], spawned := [] }) now
    message
  cases message with
  | dispatchDone i outcome =>
      rw [gateAfter, clearGate] at h ⊢
      split at h <;> simp_all [turn, freshWorkers]
  | _ => exact h

section Start

variable (db : Db) (done : FinalizationDone)

/-- The actions of the finalization check that the loop begins with. -/
def startActions : List Action :=
  let acc := (BatchAccumulator.withDb db).1
  match acc.hasDispatched, done with
  | true, .observed observations => finalizationActions acc observations
  | _, _ => []

variable {db done} in
theorem causes_of_mem_startActions {action : Action} (h : action ∈ startActions db done) :
    Causes (BatchAccumulator.withDb db).1 (.finalizationDone done) action := by
  simp only [startActions] at h
  split at h
  · exact causes_of_finalization h
  · cases h

/-- A new process loads the database, performs these actions, and its gate is open. -/
theorem start_performs :
    (start db done).state.accumulator =
        (Action.run (BatchAccumulator.withDb db).1 (startActions db done)).1 ∧
      (start db done).state.writes = (BatchAccumulator.withDb db).2 ++
        (Action.run (BatchAccumulator.withDb db).1 (startActions db done)).2 ∧
      (start db done).state.dispatchingBatch = none := by
  cases hdispatched : (BatchAccumulator.withDb db).1.hasDispatched with
  | false => simp [start, startActions, hdispatched, Action.run]
  | true =>
      cases done with
      | noOp | taskFailed =>
          simp [start, startActions, hdispatched, Action.run,
            applyFinalizationChanges]
      | observed observations =>
          simp only [start, startActions, hdispatched, if_true,
            applyFinalizationChanges]
          obtain ⟨hacc, hwrites⟩ := applyObservations_performs ⟨false, false⟩
            observations
          exact ⟨hacc, hwrites, (applyObservations_gate _ observations).1⟩

/-- The batches that the check at the start finds final. -/
def startRows : List DispatchedBatch :=
  let acc := (BatchAccumulator.withDb db).1
  match acc.hasDispatched, done with
  | true, .observed observations => finalizedRows acc observations
  | _, _ => []

theorem start_progress : (start db done).state.progress =
    (startRows db done).foldl Progress.finalize
      ⟨db.getCheckpoint, ∅, ∅, db.lastBatchEnd, false⟩ := by
  cases hdispatched : (BatchAccumulator.withDb db).1.hasDispatched with
  | false => simp [start, startRows, hdispatched, progress]
  | true =>
      cases done with
      | noOp | taskFailed =>
          simp [start, startRows, hdispatched, applyFinalizationChanges,
            progress]
      | observed observations =>
          simp only [start, startRows, hdispatched, if_true,
            applyFinalizationChanges]
          exact applyObservations_progress _ ⟨false, false⟩ observations

theorem start_watermark : (start db done).state.watermark = (db.getCheckpoint, ∅) := by
  obtain ⟨hcheckpoint, hconfirmed, -⟩ := finalize_watermark
    (startRows db done) ⟨db.getCheckpoint, ∅, ∅, db.lastBatchEnd, false⟩
  rw [← start_progress] at hcheckpoint hconfirmed
  exact Prod.ext hcheckpoint hconfirmed

end Start

end Process

end FluentStf.Orchestrator
