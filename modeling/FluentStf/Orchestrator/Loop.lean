import FluentStf.Orchestrator.Accumulator
import FluentStf.Runs

/-! The main loop of the orchestrator. It takes one message at a time from its channels;
everything else runs in tasks that it spawns and that answer by message. Metrics and logs
are left out, and with them the timestamps of missing receipts, which only drive logs.
The cancel tokens of dispatch tasks are left out as well: none is ever fired. Block numbers and
batch indexes are natural numbers without wrap-around, as in `Db`. -/
namespace FluentStf.Orchestrator

open Nitro (EthExecutionResponse SubmitBatchResponse)

abbrev Address := FixedBytes 20

structure BlockResult where
  blockNumber : Nat
  response : EthExecutionResponse
deriving DecidableEq

/-- What the listener sends to the loop. -/
inductive L1Event where
  | batchCommitted (batchIndex fromBlock toBlock : Nat)
  | batchSubmitted (batchIndex : Nat)
  | batchPreconfirmed (batchIndex : Nat) (txHash : B256) (l1Block : Nat)
  /-- All blocks up to this one have been polled. -/
  | checkpoint (l1Block : Nat)
  | batchReverted (fromBatchIndex l1Block : Nat)
deriving DecidableEq

inductive SignOutcome where
  | signed (response : SubmitBatchResponse)
  | invalidSignatures (invalidBlocks : List Nat) (enclaveAddress : Address)
  | taskFailed
deriving DecidableEq

/-- A transaction that failed for lack of gas, or in the contract. -/
inductive RevertKind where
  | oog
  | logic
deriving DecidableEq

/-- How a dispatch worker ended. -/
inductive DispatchOutcome where
  | submitted (txHash : B256) (l1Block : Nat)
  | failed
  | reverted (txHash : B256) (kind : RevertKind)
  | alreadyPreconfirmed (txHash : B256) (l1Block : Nat)
  | taskFailed
deriving DecidableEq

/-- What a worker reports before it ends. -/
inductive RbfBumpEvent where
  | initialBroadcast (txHash : B256) (nonce maxFeePerGas maxPriorityFeePerGas : Nat)
  | bumped (txHash : B256) (maxFeePerGas maxPriorityFeePerGas : Nat)
  | capReached (maxFeePerGas : Nat)
deriving DecidableEq

/-- What a finalization check found for one dispatched batch. -/
inductive ReceiptCheck where
  | found
  | reverted (kind : RevertKind)
  | missing
  | checkFailed
deriving DecidableEq

inductive FinalizationDone where
  | observed (observations : List (Nat × B256 × ReceiptCheck))
  | noOp
  | taskFailed
deriving DecidableEq

/-- What a worker needs to go on with a transaction of an earlier process. -/
structure RbfResumeState where
  nonce : Nat
  txHash : B256
  maxFeePerGas : Nat
  maxPriorityFeePerGas : Nat
deriving DecidableEq

/-- What the loop spawns. Its answer comes back as a message. -/
inductive Task where
  | signBatch (batchIndex fromBlock toBlock : Nat) (responses : List EthExecutionResponse)
  | rbfWorker (batchIndex : Nat) (signature : Bytes) (resume : Option RbfResumeState)
  | keyCheck (addr : Address) (delay : Option Nat)
  | reExecution (blockNumber : Nat)
  | checkFinalized (snapshot : List (Nat × B256 × Nat))
deriving DecidableEq

/-- What the loop takes from its channels, one at a time. -/
inductive Message where
  | finalizationTick
  | finalizationDone (done : FinalizationDone)
  | blockResult (result : BlockResult)
  | l1Event (event : L1Event)
  | signDone (batchIndex : Nat) (outcome : SignOutcome)
  | dispatchDone (batchIndex : Nat) (outcome : DispatchOutcome)
  | rbfBump (batchIndex : Nat) (event : RbfBumpEvent)
  | keyCheckDone (addr : Address) (registered : Bool)
deriving DecidableEq

/-- All that the loop keeps, with the writes and tasks of the current turn. -/
structure OrchestratorState where
  accumulator : BatchAccumulator
  checkpoint : Nat
  confirmed : Std.ExtTreeSet Nat
  signingBatch : Option Nat
  dispatchingBatch : Option Nat
  finalizationInFlight : Bool
  globalDispatchAttempts : Nat
  globalNextDispatchAllowed : Option Nat
  pendingKeyCheck : Option Address
  keyCheckAttempts : Nat
  knownResponses : Std.ExtTreeSet Nat
  lastBatchEnd : Option Nat
  shutdown : Bool
  /-- The writes of the current turn, in order. -/
  writes : List Write
  /-- The tasks that were spawned in the current turn. -/
  spawned : List Task

namespace OrchestratorState

variable (s : OrchestratorState)

def update (update : Update) : OrchestratorState :=
  { s with accumulator := update.1, writes := s.writes ++ update.2 }

def persist (write : Write) : OrchestratorState := { s with writes := s.writes ++ [write] }

def spawn (task : Task) : OrchestratorState := { s with spawned := s.spawned ++ [task] }

/-- One batch is signed at a time: the first that is ready and has no signature. -/
def trySignNextBatch : OrchestratorState :=
  if s.signingBatch.isSome then s
  else match s.accumulator.firstReadyUnsigned with
    | none => s
    | some batchIndex => match s.accumulator.batches[batchIndex]? with
      | none => s
      | some batch =>
          { s with signingBatch := some batchIndex }.spawn
            (.signBatch batchIndex batch.fromBlock batch.toBlock
              (s.accumulator.getResponses batch.fromBlock batch.toBlock))

/-- `now` is the time in seconds. -/
def tryDispatchNextBatch (now : Nat) : OrchestratorState :=
  if s.dispatchingBatch.isSome then s
  else if s.globalNextDispatchAllowed.any (now < ·) then s
  else if s.pendingKeyCheck.isSome then s
  else match s.accumulator.firstSequentialSigned with
    | none => s
    | some (batchIndex, signature) =>
        { s with dispatchingBatch := some batchIndex }.spawn (.rbfWorker batchIndex signature none)

def applyDispatchBackoff (now : Nat) : OrchestratorState :=
  let attempts := s.globalDispatchAttempts + 1
  { s with
    globalDispatchAttempts := attempts
    globalNextDispatchAllowed := some (now + min (10 * attempts) 300) }

def clearDispatchBackoff : OrchestratorState :=
  { s with globalDispatchAttempts := 0, globalNextDispatchAllowed := none }

/-- The loop that moves the watermark over confirmed blocks. Every round removes one of
them. -/
def advance : Nat → Nat → Std.ExtTreeSet Nat → Nat × Std.ExtTreeSet Nat
  | 0, checkpoint, confirmed => (checkpoint, confirmed)
  | rounds + 1, checkpoint, confirmed =>
      if confirmed.contains (checkpoint + 1) then
        advance rounds (checkpoint + 1) (confirmed.erase (checkpoint + 1))
      else (checkpoint, confirmed)

/-- Store a new response and move the checkpoint over the confirmed blocks behind it. -/
def onBlockResult (now : Nat) (result : BlockResult) : OrchestratorState :=
  let n := result.blockNumber
  if s.knownResponses.contains n then s
  else if s.lastBatchEnd.any (n ≤ ·) then s
  else
    let s := s.update (s.accumulator.insertResponse result.response)
    let confirmed := s.confirmed.insert n
    let advanced := advance confirmed.size s.checkpoint confirmed
    let s := { s with
      knownResponses := s.knownResponses.insert n
      checkpoint := advanced.1
      confirmed := advanced.2 }
    ((s.persist (.saveCheckpoint s.checkpoint)).trySignNextBatch).tryDispatchNextBatch now

/-- A revert stores the L1 block after its own, and ends the process. -/
def onL1Event (now : Nat) : L1Event → OrchestratorState
  | .batchCommitted batchIndex fromBlock toBlock =>
      s.update (s.accumulator.setBatch batchIndex fromBlock toBlock)
  | .batchSubmitted batchIndex => s.update (s.accumulator.markBatchSubmitted batchIndex)
  | .batchPreconfirmed batchIndex txHash l1Block =>
      let s := s.update (s.accumulator.markDispatchedExternal batchIndex txHash l1Block)
      s.clearDispatchBackoff.tryDispatchNextBatch now
  | .checkpoint l1Block => s.persist (.saveL1Checkpoint l1Block)
  | .batchReverted fromBatchIndex l1Block =>
      { s.persist (.wipeForRevert fromBatchIndex (l1Block + 1)) with shutdown := true }

/-- Responses that were refused are made again, and dispatch waits until the key is checked. -/
def onSignDone (now batchIndex : Nat) (outcome : SignOutcome) : OrchestratorState :=
  let s := { s with signingBatch := none }
  match outcome with
  | .signed response =>
      let s := { s with accumulator := s.accumulator.cacheSignature batchIndex response }
      let s := match s.accumulator.batches[batchIndex]? with
        | none => s
        | some batch =>
            s.update (s.accumulator.purgeResponses (blocks batch.fromBlock batch.toBlock))
      s.trySignNextBatch.tryDispatchNextBatch now
  | .invalidSignatures invalidBlocks enclaveAddress =>
      let s := s.update (s.accumulator.purgeResponses invalidBlocks)
      let s := s.update (s.accumulator.deleteBatchSignature batchIndex)
      let s := { s with
        knownResponses := invalidBlocks.foldl (fun known b => known.erase b) s.knownResponses
        spawned := s.spawned ++ invalidBlocks.map Task.reExecution
        pendingKeyCheck := some enclaveAddress
        keyCheckAttempts := 0 }
      s.spawn (.keyCheck enclaveAddress none)
  | .taskFailed => s

def onKeyCheckDone (now : Nat) (addr : Address) (registered : Bool) : OrchestratorState :=
  if registered then
    let s := { s with pendingKeyCheck := none, keyCheckAttempts := 0 }
    s.trySignNextBatch.tryDispatchNextBatch now
  else { s with keyCheckAttempts := s.keyCheckAttempts + 1 }.spawn (.keyCheck addr (some 10))

/-- The gate opens if it was held for this batch. -/
def clearGate (batchIndex : Nat) : OrchestratorState :=
  if s.dispatchingBatch = some batchIndex then { s with dispatchingBatch := none } else s

/-- The gate opens. A batch whose dispatch failed or reverted is pending again. -/
def onDispatchDone (now batchIndex : Nat) (outcome : DispatchOutcome) : OrchestratorState :=
  let s := s.clearGate batchIndex
  match outcome with
  | .submitted _ l1Block =>
      let s := s.clearDispatchBackoff
      (s.update (s.accumulator.recordDispatchedL1Block batchIndex l1Block)).tryDispatchNextBatch now
  | .reverted _ kind =>
      let s := s.update (s.accumulator.undispatch batchIndex).1
      match kind with
      | .oog => s.tryDispatchNextBatch now
      | .logic => s.applyDispatchBackoff now
  | .alreadyPreconfirmed txHash l1Block =>
      let s := s.clearDispatchBackoff
      (s.update (s.accumulator.markDispatchedExternal batchIndex txHash
        l1Block)).tryDispatchNextBatch now
  | .failed | .taskFailed =>
      (s.update (s.accumulator.undispatch batchIndex).1).applyDispatchBackoff now

/-- The L1 block of a broadcast transaction is not known yet and stored as 0. -/
def onRbfBump (batchIndex : Nat) : RbfBumpEvent → OrchestratorState
  | .initialBroadcast txHash nonce maxFeePerGas maxPriorityFeePerGas =>
      let s := s.clearDispatchBackoff
      s.update (s.accumulator.markDispatched batchIndex txHash 0 nonce maxFeePerGas
        maxPriorityFeePerGas)
  | .bumped txHash maxFeePerGas maxPriorityFeePerGas =>
      s.update (s.accumulator.recordRbfBump batchIndex txHash maxFeePerGas maxPriorityFeePerGas)
  | .capReached _ => s

def tryStartFinalization : OrchestratorState :=
  if s.finalizationInFlight then s
  else if !s.accumulator.hasDispatched then s
  else { s with finalizationInFlight := true }.spawn
    (.checkFinalized s.accumulator.dispatchedSnapshot)

structure FinalizationApplyOutcome where
  changed : Bool
  backoffLogic : Bool

/-- One round of the loop over the observations of a finalization check. -/
def applyObservation (progress : OrchestratorState × FinalizationApplyOutcome)
    (observation : Nat × B256 × ReceiptCheck) : OrchestratorState × FinalizationApplyOutcome :=
  let (s, out) := progress
  let (batchIndex, txHash, check) := observation
  match check with
  | .found =>
      let (update, finalized) := s.accumulator.finalizeDispatched batchIndex
      match finalized with
      | none => (s, out)
      | some row =>
          let s := (s.update update).persist (.saveLastBatchEnd row.toBlock)
          ({ s with
              knownResponses := (blocks row.fromBlock row.toBlock).foldl
                (fun known b => known.erase b) s.knownResponses
              lastBatchEnd := some (match s.lastBatchEnd with
                | some prev => max prev row.toBlock
                | none => row.toBlock) },
            { out with changed := true })
  | .reverted kind =>
      -- another transaction may have taken the place of the observed one
      if s.accumulator.dispatchedTxHash batchIndex ≠ some txHash then (s, out)
      else
        let (update, did) := s.accumulator.undispatch batchIndex
        (s.update update,
          if did then ⟨true, out.backoffLogic || kind = .logic⟩ else out)
  | .missing | .checkFailed => (s, out)

def applyFinalizationChanges : FinalizationDone → OrchestratorState × FinalizationApplyOutcome
  | .observed observations => observations.foldl applyObservation (s, ⟨false, false⟩)
  | .noOp | .taskFailed => (s, ⟨false, false⟩)

def onFinalizationDone (now : Nat) (done : FinalizationDone) : OrchestratorState :=
  let (s, outcome) := { s with finalizationInFlight := false }.applyFinalizationChanges done
  let s := if outcome.backoffLogic then s.applyDispatchBackoff now else s
  if outcome.changed then s.trySignNextBatch.tryDispatchNextBatch now else s

/-- One arm of the `select!` loop. -/
def handle (now : Nat) : Message → OrchestratorState
  | .finalizationTick => s.tryStartFinalization
  | .finalizationDone done => s.onFinalizationDone now done
  | .blockResult result => s.onBlockResult now result
  | .l1Event event => s.onL1Event now event
  | .signDone batchIndex outcome => s.onSignDone now batchIndex outcome
  | .dispatchDone batchIndex outcome => s.onDispatchDone now batchIndex outcome
  | .rbfBump batchIndex event => s.onRbfBump batchIndex event
  | .keyCheckDone addr registered => s.onKeyCheckDone now addr registered

end OrchestratorState

/-- The orchestrator process: the main loop and its database. -/
structure Process where
  state : OrchestratorState
  db : Db

namespace Process

/-- The workers that a new process spawns for the transactions of the last one. -/
def resumeWorkers (acc : BatchAccumulator) (db : Db) : List Task :=
  acc.dispatched.toList.filterMap fun (batchIndex, row) =>
    match row.nonce, row.maxFeePerGas, row.maxPriorityFeePerGas with
    | some nonce, some maxFeePerGas, some maxPriorityFeePerGas =>
        (db.getBatchSignature batchIndex).map fun sig =>
          .rbfWorker batchIndex sig.signature
            (some ⟨nonce, row.txHash, maxFeePerGas, maxPriorityFeePerGas⟩)
    | _, _, _ => none

/-- The start of the main loop. `done` is the answer to the finalization check that it
begins with if there are dispatched batches. -/
def start (db : Db) (done : FinalizationDone) : Process :=
  let (acc, orphans) := BatchAccumulator.withDb db
  let s : OrchestratorState :=
    { accumulator := acc
      checkpoint := db.getCheckpoint
      confirmed := ∅
      signingBatch := none
      dispatchingBatch := none
      finalizationInFlight := false
      globalDispatchAttempts := 0
      globalNextDispatchAllowed := none
      pendingKeyCheck := none
      keyCheckAttempts := 0
      knownResponses := ∅
      lastBatchEnd := db.lastBatchEnd
      shutdown := false
      writes := orphans
      spawned := [] }
  let s := if acc.hasDispatched then (s.applyFinalizationChanges done).1 else s
  let db := db.applyAll s.writes
  ⟨{ s with spawned := resumeWorkers s.accumulator db }, db⟩

/-- One turn of the loop, with all its writes. -/
def turn (p : Process) (now : Nat) (message : Message) : Process :=
  let s := { p.state with writes := [], spawned := [] }.handle now message
  ⟨s, p.db.applyAll s.writes⟩

/-- The loop takes messages in any order until it is shut down. -/
def Step (p : Process) (event : Nat × Message) (q : Process) : Prop :=
  p.state.shutdown = false ∧ q = p.turn event.1 event.2

/-- The process after some turns. -/
def turns (p : Process) (events : List (Nat × Message)) : Process :=
  events.foldl (fun p event => p.turn event.1 event.2) p

/-- The loop is not shut down before the last of the messages. -/
def running (p : Process) : List (Nat × Message) → Bool
  | [] => true
  | event :: events => !p.state.shutdown && (p.turn event.1 event.2).running events

theorem turns_eq_of_run {p q : Process} {events : List (Nat × Message)}
    (h : Run Step p events q) : q = p.turns events := by
  induction h with
  | nil => rfl
  | cons head _ ih =>
      obtain ⟨_, rfl⟩ := head
      exact ih

theorem run_turns {p : Process} {events : List (Nat × Message)} (h : p.running events) :
    Run Step p events (p.turns events) := by
  induction events generalizing p with
  | nil => exact .nil p
  | cons event events ih =>
      simp only [running, Bool.and_eq_true, Bool.not_eq_eq_eq_not, Bool.not_true] at h
      exact .cons ⟨h.1, rfl⟩ (ih h.2)

/-- A small example: batch 1 is block 1. It is executed and signed, and a worker has
started to dispatch it. -/
def dispatchingFirst : Process :=
  (start .empty .noOp).turns
    [(0, .l1Event (.batchCommitted 1 1 1)), (0, .l1Event (.batchSubmitted 1)),
      (1, .blockResult ⟨1, ⟨1, .zero, .zero, .zero 64⟩⟩),
      (2, .signDone 1 (.signed ⟨[], [], [7]⟩))]

end Process

end FluentStf.Orchestrator
