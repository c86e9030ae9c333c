import FluentStf.Orchestrator.Turn

/-! After a key rotation the orchestrator waits until the new enclave key is registered
on L1. Every negative answer starts another check, so checks of an old and of a new key
may be under way together. -/
namespace FluentStf.Orchestrator

open Nitro (SubmitBatchResponse)

/-- The last reported enclave key, as long as no check has confirmed it. -/
def awaitedAfter (awaited : Option Address) : Message → Option Address
  | .signDone _ (.invalidSignatures _ enclaveAddress) => some enclaveAddress
  | .keyCheckDone addr true => if awaited = some addr then none else awaited
  | _ => awaited

def awaited (messages : List Message) : Option Address := messages.foldl awaitedAfter none

/-- Positive answers are about the key that is waited for. -/
def AnswersAwaited (awaited : Option Address) : Message → Prop
  | .keyCheckDone addr true => ∀ latest, awaited = some latest → addr = latest
  | _ => True

def AnswersLatest : Option Address → List Message → Prop
  | _, [] => True
  | awaited, message :: messages =>
      AnswersAwaited awaited message ∧ AnswersLatest (awaitedAfter awaited message) messages

theorem AnswersLatest.append {key : Option Address} {first second : List Message}
    (h : AnswersLatest key (first ++ second)) :
    AnswersLatest key first ∧ AnswersLatest (first.foldl awaitedAfter key) second := by
  induction first generalizing key with
  | nil => exact ⟨trivial, h⟩
  | cons message first ih => exact ⟨⟨h.1, (ih h.2).1⟩, (ih h.2).2⟩

/-- A key is no longer awaited when it is confirmed. -/
theorem awaitedAfter_eq_none {addr : Address} {message : Message}
    (h : awaitedAfter (some addr) message = none) : message = .keyCheckDone addr true := by
  cases message with
  | keyCheckDone other registered =>
      cases registered with
      | false => cases h
      | true =>
          by_cases haddr : addr = other
          · rw [haddr]
          · simp [awaitedAfter, haddr] at h
  | signDone i outcome => cases outcome <;> cases h
  | finalizationTick | finalizationDone | blockResult | l1Event | dispatchDone | rbfBump => cases h

theorem keyCheckAfter_eq {s : OrchestratorState} {message : Message}
    (h : AnswersAwaited s.pendingKeyCheck message) :
    s.keyCheckAfter message = awaitedAfter s.pendingKeyCheck message := by
  cases message with
  | keyCheckDone addr registered =>
      cases registered with
      | false => rfl
      | true =>
          cases hpending : s.pendingKeyCheck with
          | none => simp [OrchestratorState.keyCheckAfter, awaitedAfter]
          | some latest =>
              simp [OrchestratorState.keyCheckAfter, awaitedAfter, h latest hpending]
  | signDone i outcome => cases outcome <;> rfl
  | finalizationTick | finalizationDone | blockResult | l1Event | dispatchDone | rbfBump => rfl

namespace Process

theorem turn_pendingKeyCheck {p : Process} {message : Message} (now : Nat)
    (h : AnswersAwaited p.state.pendingKeyCheck message) :
    (p.turn now message).state.pendingKeyCheck =
      awaitedAfter p.state.pendingKeyCheck message := by
  have hafter := OrchestratorState.handle_pendingKeyCheck
    (s := { p.state with writes := [], spawned := [] }) now message
  exact hafter.trans (keyCheckAfter_eq h)

/-- A worker is spawned only if no key check is pending. -/
theorem turn_workers {p : Process} {now : Nat} {message : Message}
    (h : OrchestratorState.freshWorkers (p.turn now message).state.spawned ≠ []) :
    (p.turn now message).state.pendingKeyCheck = none := by
  obtain ⟨_, hnone⟩ | ⟨_, _, _, hkey, _⟩ := OrchestratorState.handle_gated
    (s := { p.state with writes := [], spawned := [] }) now message
  · exact absurd hnone h
  · exact hkey

theorem start_pendingKeyCheck (db : Db) (done : FinalizationDone) :
    (start db done).state.pendingKeyCheck = none := by
  simp only [start]
  split
  · cases done with
    | noOp | taskFailed => rfl
    | observed observations => exact (OrchestratorState.applyObservations_gate _ observations).2.2
  · rfl

/-- The gate holds the key that is waited for. -/
theorem run_pendingKeyCheck {p q : Process} {events : List (Nat × Message)}
    (hrun : Run Step p events q)
    (h : AnswersLatest p.state.pendingKeyCheck (events.map Prod.snd)) :
    q.state.pendingKeyCheck =
      (events.map Prod.snd).foldl awaitedAfter p.state.pendingKeyCheck := by
  induction hrun with
  | nil => rfl
  | cons head _ ih =>
      obtain ⟨_, rfl⟩ := head
      rw [List.map_cons, List.foldl_cons, ← turn_pendingKeyCheck _ h.1]
      refine ih ?_
      rw [turn_pendingKeyCheck _ h.1]
      exact h.2

end Process

/-- If every positive answer is about the last reported key, the gate opens by the answer
for the key that closed it, and no worker is spawned while that key is not confirmed. -/
theorem dispatch_waits_for_latest_key {db : Db} {done : FinalizationDone}
    {earlier : List (Nat × Message)} {p : Process}
    (hrun : Run Process.Step (.start db done) earlier p) (now : Nat) (message : Message)
    (hlatest : AnswersLatest none (earlier.map Prod.snd ++ [message])) :
    (∀ addr, p.state.pendingKeyCheck = some addr →
      (p.turn now message).state.pendingKeyCheck = none → message = .keyCheckDone addr true) ∧
      (OrchestratorState.freshWorkers (p.turn now message).state.spawned ≠ [] →
        awaited (earlier.map Prod.snd ++ [message]) = none) := by
  obtain ⟨hearlier, hmessage, _⟩ := hlatest.append
  have hp : p.state.pendingKeyCheck = awaited (earlier.map Prod.snd) := by
    have hstart := Process.start_pendingKeyCheck db done
    have h := Process.run_pendingKeyCheck hrun (by rw [hstart]; exact hearlier)
    rwa [hstart] at h
  rw [← awaited, ← hp] at hmessage
  have hq := Process.turn_pendingKeyCheck now hmessage
  constructor
  · intro addr haddr hnone
    rw [hq, haddr] at hnone
    exact awaitedAfter_eq_none hnone
  · intro hworkers
    rw [awaited, List.foldl_append, ← awaited, ← hp, List.foldl_cons, List.foldl_nil, ← hq]
    exact Process.turn_workers hworkers

section Rotation

/-- Batch 1 is block 1, submitted and executed. -/
private def ready : List (Nat × Message) :=
  [(0, .l1Event (.batchCommitted 1 1 1)), (0, .l1Event (.batchSubmitted 1)),
    (1, .blockResult ⟨1, ⟨1, .zero, .zero, .zero 64⟩⟩)]

private def signature : SubmitBatchResponse := ⟨[], [], [7]⟩

private def firstKey : Address := ⟨List.replicate 20 1, rfl⟩

private def secondKey : Address := ⟨List.replicate 20 2, rfl⟩

/-- The signing service answers with a new key; block 1 is executed again. -/
private def rotation (key : Address) : List (Nat × Message) :=
  [(2, .signDone 1 (.invalidSignatures [1] key)),
    (3, .blockResult ⟨1, ⟨1, .zero, .zero, .zero 64⟩⟩)]

theorem dispatch_waits_for_latest_key_sample :
    let earlier := ready ++ rotation firstKey ++
      [(4, .keyCheckDone firstKey false), (5, .signDone 1 (.signed signature))]
    let p := (Process.start .empty .noOp).turns earlier
    let q := p.turn 6 (.keyCheckDone firstKey true)
    OrchestratorState.freshWorkers q.state.spawned = [1] ∧
      awaited (earlier.map Prod.snd ++ [.keyCheckDone firstKey true]) = none := by
  intro earlier p q
  have hworkers : OrchestratorState.freshWorkers q.state.spawned = [1] := by decide +kernel
  have hrun : Run Process.Step (.start .empty .noOp) earlier p :=
    Process.run_turns (by decide +kernel)
  have hlatest : AnswersLatest none (earlier.map Prod.snd ++ [.keyCheckDone firstKey true]) := by
    simp [earlier, ready, rotation, AnswersLatest, AnswersAwaited, awaitedAfter]
  refine ⟨hworkers, (dispatch_waits_for_latest_key hrun 6 _ hlatest).2 ?_⟩
  rw [hworkers]
  simp

/-- Two rotations. The answer for the first key opens the gate that was closed for the
second one, and batch 1 is dispatched. -/
theorem stale_key_opens_gate :
    let earlier := ready ++ rotation firstKey ++ [(4, .keyCheckDone firstKey false)] ++
      rotation secondKey ++ [(5, .signDone 1 (.signed signature))]
    let p := (Process.start .empty .noOp).turns earlier
    let q := p.turn 6 (.keyCheckDone firstKey true)
    p.state.pendingKeyCheck = some secondKey ∧ q.state.pendingKeyCheck = none ∧
      OrchestratorState.freshWorkers q.state.spawned = [1] ∧
      awaited (earlier.map Prod.snd ++ [.keyCheckDone firstKey true]) = some secondKey := by
  decide +kernel

end Rotation

end FluentStf.Orchestrator
