import FluentStf.Orchestrator.Turn
import Mathlib.Order.Bounds.Basic

/-! The two heights that the main loop keeps in memory and in the database: the
watermark up to which all blocks were executed, and the end of the last finalized
batch. -/
namespace FluentStf.Orchestrator

open OrchestratorState Std

/-- Both heights as they are stored. -/
def Db.heights (db : Db) : Option Nat × Option Nat := (db.checkpoint, db.lastBatchEnd)

namespace Write

/-- What a write does to the stored heights. -/
def heights : Write → Option Nat × Option Nat → Option Nat × Option Nat
  | saveCheckpoint n, (_, lastBatchEnd) => (some n, lastBatchEnd)
  | saveLastBatchEnd n, (checkpoint, _) => (checkpoint, some n)
  | wipeForRevert _ _, _ => (none, none)
  | _, stored => stored

theorem heights_apply (write : Write) (db : Db) :
    (write.apply db).heights = write.heights db.heights := by
  cases write with
  | saveCheckpoint | saveLastBatchEnd | wipeForRevert | saveL1Checkpoint | clearStartBatchId => rfl
  | deleteResponsesBatch blocks =>
      exact Db.deleteResponsesBatch_keeps Db.heights blocks db fun _ _ => rfl
  | _ => exact Db.execute_keeps Db.heights rfl

end Write

/-- The accumulator does not store heights. -/
theorem Operation.heights_applyAll (op : Operation) (acc : BatchAccumulator) (db : Db) :
    (db.applyAll (op.apply acc).2).heights = db.heights := by
  have hkept : ∀ write : Write, (∀ stored, write.heights stored = stored) → ∀ db,
      (write.apply db).heights = db.heights := by
    intro write hwrite db
    rw [write.heights_apply, hwrite]
  refine db.applyAll_keeps Db.heights fun write hmem => hkept write ?_
  cases op with
  | insertResponse | purgeResponses | signed | deleteBatchSignature | recordRbfBump
  | recordDispatchedL1Block =>
      rw [List.mem_singleton.mp hmem]
      exact fun _ => rfl
  | setBatch =>
      simp only [apply, BatchAccumulator.setBatch] at hmem
      split at hmem
      · cases hmem
      · split at hmem <;> simp only [List.mem_append, List.mem_singleton, List.not_mem_nil,
          false_or] at hmem
        · rcases hmem with rfl | rfl <;> exact fun _ => rfl
        · rw [hmem]
          exact fun _ => rfl
  | markBatchSubmitted =>
      simp only [apply, BatchAccumulator.markBatchSubmitted] at hmem
      split at hmem <;> rw [List.mem_singleton.mp hmem] <;> exact fun _ => rfl
  | markDispatched | markDispatchedExternal =>
      simp only [apply, BatchAccumulator.markDispatched,
        BatchAccumulator.markDispatchedExternal] at hmem
      split at hmem
      · cases hmem
      · rw [List.mem_singleton.mp hmem]
        exact fun _ => rfl
  | finalizeDispatched =>
      simp only [apply, BatchAccumulator.finalizeDispatched] at hmem
      split at hmem
      · cases hmem
      · rw [List.mem_singleton.mp hmem]
        exact fun _ => rfl
  | undispatch =>
      simp only [apply, BatchAccumulator.undispatch] at hmem
      split at hmem
      · cases hmem
      · split at hmem
        · cases hmem
        · rw [List.mem_singleton.mp hmem]
          exact fun _ => rfl

namespace Action

/-- What an action does to the stored heights. -/
def heights (stored : Option Nat × Option Nat) : Action → Option Nat × Option Nat
  | persist write => write.heights stored
  | operation _ | cacheSignature _ _ => stored

theorem heights_run (acc : BatchAccumulator) (actions : List Action) (db : Db) :
    (db.applyAll (run acc actions).2).heights = actions.foldl heights db.heights := by
  induction actions generalizing acc db with
  | nil => rfl
  | cons action actions ih =>
      rw [run, Db.applyAll_append, ih, List.foldl_cons]
      congr 1
      cases action with
      | operation op => exact op.heights_applyAll acc db
      | cacheSignature => rfl
      | persist write => exact write.heights_apply db

end Action

namespace OrchestratorState

/-- The ends of the batches that the observations find final, in this order. -/
def finalizedEnds (acc : BatchAccumulator) (observations : List (Nat × B256 × ReceiptCheck)) :
    List Nat :=
  (finalizedRows acc observations).map DispatchedBatch.toBlock

/-- The end in the database is the one that was stored last. -/
theorem heights_finalizationActions (acc : BatchAccumulator)
    (observations : List (Nat × B256 × ReceiptCheck)) (stored : Option Nat × Option Nat) :
    (finalizationActions acc observations).foldl Action.heights stored =
      (stored.1, (finalizedEnds acc observations).getLast?.or stored.2) := by
  induction observations generalizing acc stored with
  | nil => rfl
  | cons observation observations ih =>
      rw [finalizationActions, List.foldl_append, ih, finalizedEnds, finalizedEnds, finalizedRows,
        List.map_append, List.getLast?_append]
      obtain ⟨i, txHash, check⟩ := observation
      cases check with
      | found =>
          cases hrow : acc.dispatched[i]? <;>
            simp [observationActions, finalizedRow, hrow, Action.heights, Write.heights]
      | reverted kind =>
          by_cases hstale : acc.dispatchedTxHash i = some txHash <;>
            simp [observationActions, finalizedRow, hstale, Action.heights]
      | missing | checkFailed => simp [observationActions, finalizedRow]

/-- The stored heights after the actions of a message. -/
theorem heights_actions (s : OrchestratorState) (message : Message)
    (stored : Option Nat × Option Nat) :
    (s.actions message).foldl Action.heights stored = match message with
      | .finalizationDone (.observed observations) =>
          (stored.1, (finalizedEnds s.accumulator observations).getLast?.or stored.2)
      | .blockResult result =>
          if s.drops result then stored else (some (s.advanced result).1, stored.2)
      | .l1Event (.batchReverted _ _) => (none, none)
      | _ => stored := by
  cases message with
  | finalizationDone done =>
      cases done with
      | noOp | taskFailed => rfl
      | observed observations => exact heights_finalizationActions s.accumulator observations stored
  | blockResult result =>
      simp only [actions]
      split <;> rfl
  | signDone i outcome =>
      cases outcome with
      | signed response =>
          simp only [actions]
          split <;> rfl
      | invalidSignatures | taskFailed => rfl
  | l1Event event => cases event <;> rfl
  | dispatchDone i outcome => cases outcome <;> rfl
  | rbfBump i event => cases event <;> rfl
  | finalizationTick | keyCheckDone => rfl

/-- The end in memory is the highest so far. -/
theorem foldl_raiseEnd (lastBatchEnd : Option Nat) (ends : List Nat) :
    ends.foldl raiseEnd lastBatchEnd = (lastBatchEnd.toList ++ ends).max? := by
  induction ends generalizing lastBatchEnd with
  | nil => cases lastBatchEnd <;> simp
  | cons toBlock ends ih =>
      rw [List.foldl_cons, ih]
      cases lastBatchEnd with
      | none => rfl
      | some prev =>
          simp only [raiseEnd, Option.toList_some, List.singleton_append, List.max?_cons',
            List.foldl_cons]

theorem finalize_lastBatchEnd (rows : List DispatchedBatch) (progress : Progress) :
    (rows.foldl Progress.finalize progress).lastBatchEnd =
      (rows.map DispatchedBatch.toBlock).foldl raiseEnd progress.lastBatchEnd := by
  induction rows generalizing progress with
  | nil => rfl
  | cons row rows ih => exact ih (progress.finalize row)

theorem mem_forget {known : ExtTreeSet Nat} {blocks : List Nat} {b : Nat}
    (h : b ∈ forget known blocks) : b ∈ known := by
  induction blocks generalizing known with
  | nil => exact h
  | cons block blocks ih => exact ExtTreeSet.mem_of_mem_erase (ih h)

theorem mem_finalize {rows : List DispatchedBatch} {progress : Progress} {b : Nat}
    (h : b ∈ (rows.foldl Progress.finalize progress).knownResponses) :
    b ∈ progress.knownResponses := by
  induction rows generalizing progress with
  | nil => exact h
  | cons row rows ih => exact mem_forget (ih h)

end OrchestratorState

namespace Process

variable {p q : Process} {db : Db} {done : FinalizationDone} {events : List (Nat × Message)}

theorem turn_heights (p : Process) (now : Nat) (message : Message) :
    (p.turn now message).db.heights =
      (p.state.actions message).foldl Action.heights p.db.heights := by
  rw [turn_db, Action.heights_run]

theorem start_heights (db : Db) (done : FinalizationDone) :
    (start db done).db.heights =
      (db.checkpoint, ((startRows db done).map DispatchedBatch.toBlock).getLast?.or
        db.lastBatchEnd) := by
  have hdb : (start db done).db = db.applyAll (start db done).state.writes := rfl
  have horphans : (db.applyAll (BatchAccumulator.withDb db).2).heights = db.heights := by
    refine db.applyAll_keeps Db.heights fun write hwrite => ?_
    obtain ⟨i, -, rfl⟩ := List.mem_map.mp hwrite
    exact (Write.deleteBatchSignature i).heights_apply
  rw [hdb, (start_performs db done).2.1, Db.applyAll_append, Action.heights_run, horphans]
  cases hdispatched : (BatchAccumulator.withDb db).1.hasDispatched with
  | false => simp [startActions, startRows, hdispatched, Db.heights]
  | true =>
      cases done with
      | noOp | taskFailed => simp [startActions, startRows, Db.heights]
      | observed observations =>
          simp only [startActions, startRows, hdispatched,
            heights_finalizationActions]
          rfl

/-- A loop that was shut down takes no further message. -/
theorem live_of_run (hrun : Run Step p events q) (hlive : q.state.shutdown = false) :
    p.state.shutdown = false := by
  cases hrun with
  | nil => exact hlive
  | cons head _ => exact head.1

theorem not_reverted {now : Nat} {message : Message}
    (hlive : (p.turn now message).state.shutdown = false) (i l1Block : Nat) :
    message ≠ .l1Event (.batchReverted i l1Block) := by
  rintro rfl
  cases hlive

section LastBatchEnd

/-- The ends of the batches that a message finds final. -/
def finalizedEnds (p : Process) : Message → List Nat
  | .finalizationDone (.observed observations) =>
      OrchestratorState.finalizedEnds p.state.accumulator observations
  | _ => []

/-- The ends of all batches that are found final in a run, in this order. -/
def allFinalizedEnds (p : Process) : List (Nat × Message) → List Nat
  | [] => []
  | event :: events =>
      p.finalizedEnds event.2 ++ (p.turn event.1 event.2).allFinalizedEnds events

/-- With the batches that the check at the start finds final. -/
def endsSinceStart (db : Db) (done : FinalizationDone) (events : List (Nat × Message)) :
    List Nat :=
  (startRows db done).map DispatchedBatch.toBlock ++ (start db done).allFinalizedEnds events

/-- In memory the ends are raised one by one, in the database they are replaced. -/
structure EndsAt (initial : Option Nat) (ends : List Nat) (p : Process) : Prop where
  memory : p.state.lastBatchEnd = ends.foldl raiseEnd initial
  stored : p.db.lastBatchEnd = ends.getLast?.or initial

variable {initial : Option Nat} {ends : List Nat}

theorem EndsAt.turn (h : EndsAt initial ends p) {now : Nat} {message : Message}
    (hlive : (p.turn now message).state.shutdown = false) :
    EndsAt initial (ends ++ p.finalizedEnds message) (p.turn now message) := by
  have hmemory := congrArg Progress.lastBatchEnd (p.turn_progress now message)
  have hstored := congrArg Prod.snd ((p.turn_heights now message).trans
    (heights_actions p.state message p.db.heights))
  have hnone : p.finalizedEnds message = [] →
      (p.turn now message).state.lastBatchEnd = p.state.lastBatchEnd →
      (p.turn now message).db.lastBatchEnd = p.db.lastBatchEnd →
      EndsAt initial (ends ++ p.finalizedEnds message) (p.turn now message) := by
    intro hends hmemory hstored
    rw [hends, List.append_nil]
    exact ⟨hmemory.trans h.memory, hstored.trans h.stored⟩
  cases message with
  | finalizationDone done =>
      cases done with
      | noOp | taskFailed => exact hnone rfl hmemory hstored
      | observed observations =>
          constructor
          · rw [List.foldl_append, ← h.memory]
            exact hmemory.trans (finalize_lastBatchEnd _ _)
          · rw [List.getLast?_append, Option.or_assoc, ← h.stored]
            exact hstored
  | blockResult result =>
      simp only [progressAfter] at hmemory hstored
      refine hnone rfl (hmemory.trans ?_) (hstored.trans ?_) <;> split <;> rfl
  | l1Event event =>
      cases event with
      | batchReverted i l1Block => exact absurd rfl (not_reverted hlive i l1Block)
      | batchCommitted | batchSubmitted | batchPreconfirmed | checkpoint =>
          exact hnone rfl hmemory hstored
  | signDone i outcome => cases outcome <;> exact hnone rfl hmemory hstored
  | finalizationTick | dispatchDone | rbfBump | keyCheckDone => exact hnone rfl hmemory hstored

theorem EndsAt.start (db : Db) (done : FinalizationDone) :
    EndsAt db.lastBatchEnd ((startRows db done).map DispatchedBatch.toBlock) (start db done) := by
  constructor
  · exact (congrArg Progress.lastBatchEnd (start_progress db done)).trans
      (finalize_lastBatchEnd _ _)
  · exact congrArg Prod.snd (start_heights db done)

theorem EndsAt.run (h : EndsAt initial ends p) (hrun : Run Step p events q)
    (hlive : q.state.shutdown = false) :
    EndsAt initial (ends ++ p.allFinalizedEnds events) q := by
  induction hrun generalizing ends with
  | nil => simpa [allFinalizedEnds] using h
  | cons head tail ih =>
      obtain ⟨_, rfl⟩ := head
      have hrest := ih (h.turn (live_of_run tail hlive)) hlive
      rwa [List.append_assoc] at hrest

end LastBatchEnd

end Process

/-- The database and the memory both have the highest end exactly if the batch that was
found final last ends highest. -/
theorem finalized_height_persisted_iff {db : Db} {done : FinalizationDone}
    {events : List (Nat × Message)} {q : Process}
    (hrun : Run Process.Step (Process.start db done) events q)
    (hlive : q.state.shutdown = false) :
    let ends := Process.endsSinceStart db done events
    (q.state.lastBatchEnd = (db.lastBatchEnd.toList ++ ends).max? ∧
        q.db.lastBatchEnd = (db.lastBatchEnd.toList ++ ends).max?) ↔
      ∀ last, ends.getLast? = some last → ∀ toBlock ∈ db.lastBatchEnd.toList ++ ends,
        toBlock ≤ last := by
  intro ends
  obtain ⟨hmemory, hstored⟩ := (Process.EndsAt.start db done).run hrun hlive
  rw [foldl_raiseEnd] at hmemory
  rw [hmemory, hstored]
  refine (and_iff_right rfl).trans ?_
  rw [← Process.endsSinceStart]
  cases hlast : ends.getLast? with
  | none =>
      have hnil : ends = [] := List.getLast?_eq_none_iff.mp hlast
      have hinitial : db.lastBatchEnd = (db.lastBatchEnd.toList ++ ends).max? := by
        rw [hnil]
        cases db.lastBatchEnd <;> simp
      exact iff_of_true hinitial (by simp)
  | some last =>
      have hmem : last ∈ db.lastBatchEnd.toList ++ ends :=
        List.mem_append_right _ (List.mem_of_getLast? hlast)
      rw [Option.some_or, eq_comm, List.max?_eq_some_iff]
      constructor
      · rintro ⟨-, hhighest⟩ _ ⟨⟩
        exact hhighest
      · exact fun hhighest => ⟨hmem, hhighest last rfl⟩

/-- Batches 1 and 2 are blocks 1 to 2 and 3 to 4, and somebody else preconfirmed both. -/
def twoPreconfirmed : List (Nat × Message) :=
  [(0, .l1Event (.batchCommitted 1 1 2)), (0, .l1Event (.batchCommitted 2 3 4)),
    (0, .l1Event (.batchPreconfirmed 1 (.ofNat 1) 10)),
    (0, .l1Event (.batchPreconfirmed 2 (.ofNat 2) 11))]

theorem finalized_height_persisted_ascending :
    let events := twoPreconfirmed ++
      [(1, .finalizationDone (.observed [(1, .ofNat 1, .found)])),
        (2, .finalizationDone (.observed [(2, .ofNat 2, .found)]))]
    let q := (Process.start .empty .noOp).turns events
    q.state.lastBatchEnd = (Db.empty.lastBatchEnd.toList ++
        Process.endsSinceStart .empty .noOp events).max? ∧
      q.db.lastBatchEnd = (Db.empty.lastBatchEnd.toList ++
        Process.endsSinceStart .empty .noOp events).max? := by
  intro events q
  have hends : Process.endsSinceStart .empty .noOp events = [2, 4] := by decide +kernel
  refine (finalized_height_persisted_iff (Process.run_turns (by decide +kernel))
    (by decide +kernel)).mpr ?_
  rw [hends]
  decide

/-- The receipt of batch 1 could not be read at first: batch 2 is found final before
batch 1, and the database falls back to the end of batch 1. -/
theorem finalized_height_falls_back :
    let events := twoPreconfirmed ++
      [(1, .finalizationDone (.observed [(1, .ofNat 1, .checkFailed), (2, .ofNat 2, .found)])),
        (2, .finalizationDone (.observed [(1, .ofNat 1, .found)]))]
    let q := (Process.start .empty .noOp).turns events
    Run Process.Step (Process.start .empty .noOp) events q ∧ q.state.shutdown = false ∧
      Process.endsSinceStart .empty .noOp events = [4, 2] ∧
      q.state.lastBatchEnd = some 4 ∧ q.db.lastBatchEnd = some 2 := by
  intro events q
  exact ⟨Process.run_turns (by decide +kernel), by decide +kernel, by decide +kernel,
    by decide +kernel, by decide +kernel⟩

namespace OrchestratorState

/-- The loop passes or keeps every confirmed block. -/
theorem advance_keeps {rounds checkpoint b : Nat} {confirmed : ExtTreeSet Nat}
    (h : b ≤ checkpoint ∨ b ∈ confirmed) :
    b ≤ (advance rounds checkpoint confirmed).1 ∨ b ∈ (advance rounds checkpoint confirmed).2 := by
  induction rounds generalizing checkpoint confirmed with
  | zero => exact h
  | succ rounds ih =>
      rw [advance]
      split
      · apply ih
        rcases h with hle | hmem
        · exact .inl (by omega)
        · by_cases hb : b = checkpoint + 1
          · exact .inl (by omega)
          · refine .inr (ExtTreeSet.mem_erase.mpr ⟨fun hcompare => hb ?_, hmem⟩)
            exact (LawfulEqCmp.eq_of_compare hcompare).symm
      · exact h

/-- With a round for every confirmed block, the loop stops at a gap. -/
theorem advance_stops {rounds checkpoint : Nat} {confirmed : ExtTreeSet Nat}
    (h : confirmed.size ≤ rounds) :
    (advance rounds checkpoint confirmed).1 + 1 ∉ (advance rounds checkpoint confirmed).2 := by
  induction rounds generalizing checkpoint confirmed with
  | zero =>
      have hempty : confirmed = ∅ := ExtTreeSet.eq_empty_iff_size_eq_zero.mpr (by omega)
      rw [hempty]
      exact ExtTreeSet.not_mem_empty
  | succ rounds ih =>
      rw [advance]
      split
      · next hnext =>
          apply ih
          rw [ExtTreeSet.size_erase, if_pos (by simpa using hnext)]
          omega
      · next hnext => simpa using hnext

end OrchestratorState

namespace Process

/-- The block whose result a message delivers. -/
def deliveredBlock : Message → Option Nat
  | .blockResult result => some result.blockNumber
  | _ => none

def delivered (events : List (Nat × Message)) : List Nat :=
  events.filterMap fun event => deliveredBlock event.2

/-- A result for a finalized block is not needed: the block was delivered before. -/
def Needless (p : Process) : Message → Prop
  | .blockResult result => p.state.lastBatchEnd.any (result.blockNumber ≤ ·) →
      result.blockNumber ≤ p.state.checkpoint ∨ result.blockNumber ∈ p.state.confirmed
  | _ => True

def NeedlessStep (p : Process) (event : Nat × Message) (q : Process) : Prop :=
  p.Step event q ∧ p.Needless event.2

/-- The watermark follows the delivered blocks. -/
structure Follows (first : Nat) (delivered : List Nat) (p : Process) : Prop where
  stored : p.db.getCheckpoint = p.state.checkpoint
  floor : first ≤ p.state.checkpoint
  sound : ∀ b, first < b → b ≤ p.state.checkpoint ∨ b ∈ p.state.confirmed → b ∈ delivered
  complete : ∀ b ∈ delivered, b ≤ p.state.checkpoint ∨ b ∈ p.state.confirmed
  stops : p.state.checkpoint + 1 ∉ p.state.confirmed
  known : ∀ b ∈ p.state.knownResponses, b ≤ p.state.checkpoint ∨ b ∈ p.state.confirmed

variable {p q : Process} {first : Nat} {numbers : List Nat} {now : Nat} {message : Message}

/-- Responses become known with the results that are accepted. -/
theorem known_turn {b : Nat} (h : b ∈ (p.turn now message).state.knownResponses) :
    b ∈ p.state.knownResponses ∨ ∃ result, message = .blockResult result ∧
      p.state.drops result = false ∧ b = result.blockNumber := by
  have hknown : b ∈ (p.turn now message).state.progress.knownResponses := h
  rw [turn_progress] at hknown
  cases message with
  | blockResult result =>
      simp only [progressAfter] at hknown
      split at hknown
      · exact .inl hknown
      · next hdrops =>
          rcases ExtTreeSet.mem_insert.mp hknown with heq | hmem
          · exact .inr ⟨result, rfl, by simpa using hdrops,
              (LawfulEqCmp.eq_of_compare heq).symm⟩
          · exact .inl hmem
  | finalizationDone done =>
      cases done with
      | noOp | taskFailed => exact .inl hknown
      | observed observations => exact .inl (mem_finalize hknown)
  | signDone i outcome =>
      cases outcome with
      | invalidSignatures invalidBlocks => exact .inl (mem_forget hknown)
      | signed | taskFailed => exact .inl hknown
  | l1Event event => cases event <;> exact .inl hknown
  | finalizationTick | dispatchDone | rbfBump | keyCheckDone => exact .inl hknown

theorem checkpoint_turn (hlive : (p.turn now message).state.shutdown = false) :
    (p.turn now message).db.checkpoint = match message with
      | .blockResult result =>
          if p.state.drops result then p.db.checkpoint else some (p.state.advanced result).1
      | _ => p.db.checkpoint := by
  have hstored := congrArg Prod.fst ((p.turn_heights now message).trans
    (heights_actions p.state message p.db.heights))
  cases message with
  | blockResult result =>
      refine hstored.trans ?_
      simp only
      split <;> rfl
  | finalizationDone done => cases done <;> exact hstored
  | l1Event event =>
      cases event with
      | batchReverted i l1Block => exact absurd rfl (not_reverted hlive i l1Block)
      | batchCommitted | batchSubmitted | batchPreconfirmed | checkpoint => exact hstored
  | signDone i outcome => cases outcome <;> exact hstored
  | finalizationTick | dispatchDone | rbfBump | keyCheckDone => exact hstored

/-- A result that is accepted. -/
theorem Follows.accept (h : Follows first numbers p) {result : BlockResult}
    (hdrops : p.state.drops result = false)
    (hlive : (p.turn now (.blockResult result)).state.shutdown = false) :
    Follows first (numbers ++ [result.blockNumber]) (p.turn now (.blockResult result)) := by
  have hwatermark := p.turn_watermark now (.blockResult result)
  have hstored := checkpoint_turn hlive
  simp only [hdrops, Bool.false_eq_true, if_false] at hwatermark hstored
  have hcheckpoint : (p.turn now (.blockResult result)).state.checkpoint =
      (p.state.advanced result).1 := congrArg Prod.fst hwatermark
  have hconfirmed : (p.turn now (.blockResult result)).state.confirmed =
      (p.state.advanced result).2 := congrArg Prod.snd hwatermark
  have hkeeps : ∀ b, b ≤ p.state.checkpoint ∨ b ∈ p.state.confirmed ∨ b = result.blockNumber →
      b ≤ (p.state.advanced result).1 ∨ b ∈ (p.state.advanced result).2 := by
    intro b hb
    apply advance_keeps
    rcases hb with hle | hmem | rfl
    · exact .inl hle
    · exact .inr (ExtTreeSet.mem_insert.mpr (.inr hmem))
    · exact .inr ExtTreeSet.mem_insert_self
  constructor
  · rw [Db.getCheckpoint, hstored, hcheckpoint]
    rfl
  · rw [hcheckpoint]
    exact h.floor.trans le_advance
  · intro b hfirst hb
    rw [hcheckpoint, hconfirmed] at hb
    rw [List.mem_append, List.mem_singleton]
    rcases advance_covers hb with hle | hmem
    · exact .inl (h.sound b hfirst (.inl hle))
    · rcases ExtTreeSet.mem_insert.mp hmem with heq | hmem
      · exact .inr (LawfulEqCmp.eq_of_compare heq).symm
      · exact .inl (h.sound b hfirst (.inr hmem))
  · intro b hb
    rw [hcheckpoint, hconfirmed]
    apply hkeeps
    rcases List.mem_append.mp hb with hb | hb
    · exact (h.complete b hb).imp_right .inl
    · exact .inr (.inr (List.mem_singleton.mp hb))
  · rw [hcheckpoint, hconfirmed]
    exact advance_stops le_rfl
  · intro b hb
    rw [hcheckpoint, hconfirmed]
    apply hkeeps
    rcases known_turn hb with hb | ⟨_, hresult, -, rfl⟩
    · exact (h.known b hb).imp_right .inl
    · cases hresult
      exact .inr (.inr rfl)

/-- All other messages leave the watermark where it is. -/
theorem Follows.skip (h : Follows first numbers p)
    (hskip : ∀ result, message = .blockResult result → p.state.drops result = true)
    (hneedless : p.Needless message)
    (hlive : (p.turn now message).state.shutdown = false) :
    Follows first (numbers ++ delivered [(now, message)]) (p.turn now message) := by
  have hwatermark : (p.turn now message).state.watermark = p.state.watermark := by
    rw [turn_watermark]
    cases message with
    | blockResult result => simp only [hskip result rfl, if_true]
    | finalizationTick | finalizationDone | l1Event | signDone | dispatchDone | rbfBump
    | keyCheckDone => rfl
  have hcheckpoint : (p.turn now message).state.checkpoint = p.state.checkpoint :=
    congrArg Prod.fst hwatermark
  have hconfirmed : (p.turn now message).state.confirmed = p.state.confirmed :=
    congrArg Prod.snd hwatermark
  have hstored : (p.turn now message).db.checkpoint = p.db.checkpoint := by
    rw [checkpoint_turn hlive]
    cases message with
    | blockResult result => simp only [hskip result rfl, if_true]
    | finalizationTick | finalizationDone | l1Event | signDone | dispatchDone | rbfBump
    | keyCheckDone => rfl
  constructor
  · rw [Db.getCheckpoint, hstored, hcheckpoint]
    exact h.stored
  · rw [hcheckpoint]
    exact h.floor
  · intro b hfirst hb
    rw [hcheckpoint, hconfirmed] at hb
    exact List.mem_append_left _ (h.sound b hfirst hb)
  · intro b hb
    rw [hcheckpoint, hconfirmed]
    rcases List.mem_append.mp hb with hb | hb
    · exact h.complete b hb
    · cases message with
      | blockResult result =>
          obtain rfl := List.mem_singleton.mp hb
          have hdrops := hskip result rfl
          rw [drops, Bool.or_eq_true] at hdrops
          rcases hdrops with hknown | hfinal
          · exact h.known _ (ExtTreeSet.contains_iff_mem.mp hknown)
          · exact hneedless hfinal
      | finalizationTick | finalizationDone | l1Event | signDone | dispatchDone | rbfBump
      | keyCheckDone => cases hb
  · rw [hcheckpoint, hconfirmed]
    exact h.stops
  · intro b hb
    rw [hcheckpoint, hconfirmed]
    rcases known_turn hb with hb | ⟨result, hresult, hdrops, -⟩
    · exact h.known b hb
    · rw [hskip result hresult] at hdrops
      cases hdrops

theorem Follows.start (db : Db) (done : FinalizationDone) :
    Follows db.getCheckpoint [] (start db done) := by
  have hwatermark := start_watermark db done
  have hcheckpoint : (Process.start db done).state.checkpoint = db.getCheckpoint :=
    congrArg Prod.fst hwatermark
  have hconfirmed : (Process.start db done).state.confirmed = ∅ := congrArg Prod.snd hwatermark
  have hstored : (Process.start db done).db.checkpoint = db.checkpoint :=
    congrArg Prod.fst (start_heights db done)
  have hnone : ∀ b, b ∉ (Process.start db done).state.knownResponses := by
    intro b hb
    have hknown : b ∈ (Process.start db done).state.progress.knownResponses := hb
    rw [start_progress] at hknown
    exact ExtTreeSet.not_mem_empty (mem_finalize hknown)
  constructor
  · rw [Db.getCheckpoint, hstored, hcheckpoint, Db.getCheckpoint]
  · rw [hcheckpoint]
  · intro b hfirst hb
    rw [hcheckpoint, hconfirmed] at hb
    rcases hb with hle | hmem
    · omega
    · exact absurd hmem ExtTreeSet.not_mem_empty
  · intro b hb
    cases hb
  · rw [hconfirmed]
    exact ExtTreeSet.not_mem_empty
  · exact fun b hb => absurd hb (hnone b)

theorem Follows.step (h : Follows first numbers p) (hneedless : p.Needless message)
    (hlive : (p.turn now message).state.shutdown = false) :
    Follows first (numbers ++ delivered [(now, message)]) (p.turn now message) := by
  by_cases haccept : ∃ result, message = .blockResult result ∧ p.state.drops result = false
  · obtain ⟨result, rfl, hdrops⟩ := haccept
    exact h.accept hdrops hlive
  · refine h.skip (fun result hresult => ?_) hneedless hlive
    by_contra hdrops
    exact haccept ⟨result, hresult, by simpa using hdrops⟩

theorem Follows.run (h : Follows first numbers p) {events : List (Nat × Message)}
    (hrun : Run NeedlessStep p events q) (hlive : q.state.shutdown = false) :
    Follows first (numbers ++ delivered events) q := by
  induction hrun generalizing numbers with
  | nil => simpa [delivered] using h
  | @cons p _ _ event events head tail ih =>
      obtain ⟨⟨_, rfl⟩, hneedless⟩ := head
      have hnext : (p.turn event.1 event.2).state.shutdown = false := by
        cases tail with
        | nil => exact hlive
        | cons next _ => exact next.1.1
      have hrest := ih (h.step hneedless hnext) hlive
      rwa [List.append_assoc, delivered, delivered, ← List.filterMap_append] at hrest

end Process

/-- In every run in which no result for a finalized block is needed, the watermark is the
end of the blocks that were delivered without a gap, in memory and in the database. -/
theorem watermark_follows_delivered {db : Db} {done : FinalizationDone}
    {events : List (Nat × Message)} {q : Process}
    (hrun : Run Process.NeedlessStep (Process.start db done) events q)
    (hlive : q.state.shutdown = false) :
    IsGreatest {n | ∀ b, db.getCheckpoint < b → b ≤ n → b ∈ Process.delivered events}
        q.state.checkpoint ∧
      q.db.getCheckpoint = q.state.checkpoint := by
  have h : Process.Follows db.getCheckpoint (Process.delivered events) q :=
    (Process.Follows.start db done).run hrun hlive
  refine ⟨⟨fun b hfirst hb => h.sound b hfirst (.inl hb), fun n hn => ?_⟩, h.stored⟩
  by_contra hlt
  have hfloor := h.floor
  have hnext := hn (q.state.checkpoint + 1) (by omega) (by omega)
  rcases h.complete _ hnext with hle | hmem
  · omega
  · exact h.stops hmem

/-- The result of a block, as an execution worker delivers it. -/
def resultOf (n : UInt64) : Message := .blockResult ⟨n.toNat, ⟨n, .zero, .zero, .zero 64⟩⟩

/-- Blocks 2 and 1 of a batch are delivered before it is found final. A result for block 2 that
comes afterwards is dropped, and the watermark goes on with block 3. -/
theorem watermark_follows_delivered_reordered :
    let events := [(0, .l1Event (.batchCommitted 1 1 2)),
      (0, .l1Event (.batchPreconfirmed 1 (.ofNat 1) 10)), (0, resultOf 2), (0, resultOf 1),
      (1, .finalizationDone (.observed [(1, .ofNat 1, .found)])), (2, resultOf 2), (2, resultOf 3)]
    let q := (Process.start .empty .noOp).turns events
    q.state.lastBatchEnd = some 2 ∧ q.state.checkpoint = 3 ∧
      IsGreatest {n | ∀ b, Db.empty.getCheckpoint < b → b ≤ n → b ∈ Process.delivered events}
        q.state.checkpoint ∧
      q.db.getCheckpoint = q.state.checkpoint := by
  intro events q
  have hrun : Run Process.NeedlessStep (Process.start .empty .noOp) events q :=
    .cons ⟨⟨by decide +kernel, rfl⟩, trivial⟩ <| .cons ⟨⟨by decide +kernel, rfl⟩, trivial⟩ <|
      .cons ⟨⟨by decide +kernel, rfl⟩, fun h => absurd h (by decide +kernel)⟩ <|
      .cons ⟨⟨by decide +kernel, rfl⟩, fun h => absurd h (by decide +kernel)⟩ <|
      .cons ⟨⟨by decide +kernel, rfl⟩, trivial⟩ <|
      .cons ⟨⟨by decide +kernel, rfl⟩, fun _ => .inl (by decide +kernel)⟩ <|
      .cons ⟨⟨by decide +kernel, rfl⟩, fun h => absurd h (by decide +kernel)⟩ <| .nil _
  exact ⟨by decide +kernel, by decide +kernel,
    watermark_follows_delivered hrun (by decide +kernel)⟩

/-- Somebody else preconfirmed batch 1, and it is found final before its blocks 1 and 2
were executed here: the watermark stays below them for good. -/
theorem watermark_stalls :
    let events := [(0, .l1Event (.batchCommitted 1 1 2)),
      (0, .l1Event (.batchPreconfirmed 1 (.ofNat 1) 10)),
      (1, .finalizationDone (.observed [(1, .ofNat 1, .found)])),
      (2, resultOf 1), (2, resultOf 2), (2, resultOf 3)]
    let q := (Process.start .empty .noOp).turns events
    Run Process.Step (Process.start .empty .noOp) events q ∧ q.state.shutdown = false ∧
      Process.delivered events = [1, 2, 3] ∧ q.state.checkpoint = 0 ∧
      ¬IsGreatest {n | ∀ b, Db.empty.getCheckpoint < b → b ≤ n → b ∈ Process.delivered events}
        q.state.checkpoint := by
  intro events q
  have hcheckpoint : q.state.checkpoint = 0 := by decide +kernel
  refine ⟨Process.run_turns (by decide +kernel), by decide +kernel, by decide, hcheckpoint, ?_⟩
  rintro ⟨-, hgreatest⟩
  have hone : 1 ≤ q.state.checkpoint := by
    refine hgreatest fun b hfirst hb => ?_
    have heq : b = 1 := by
      have hzero : Db.empty.getCheckpoint = 0 := rfl
      omega
    rw [heq]
    decide
  omega

end FluentStf.Orchestrator
