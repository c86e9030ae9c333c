import FluentStf.Runs

/-! The driver that keeps the local MDBX database in step with L2 and hands the blocks to the
orchestrator. Below `witness_from_block` it only commits blocks, up to the tip that it found
at the start it builds witnesses of blocks already committed, and after that it commits each
block before it hands it out. Heights are natural numbers without wrap-around. -/
namespace FluentStf.Orchestrator

structure DriverConfig where
  pruner : Bool
  witnessFromBlock : Nat
  orchestratorCheckpoint : Nat
  l2SafeBlocks : Nat

/-- The committed blocks. -/
structure Mdbx where
  tip : Nat
  /-- Each block that was committed, with the tip before it. -/
  commits : List (Nat × Nat)
deriving DecidableEq

namespace Mdbx

def commit (mdbx : Mdbx) (blockNumber : Nat) : Mdbx :=
  ⟨blockNumber, mdbx.commits ++ [(mdbx.tip, blockNumber)]⟩

/-- The blocks from `first` to `last` in one transaction. -/
def commitBatch (mdbx : Mdbx) (first last : Nat) : Mdbx :=
  (List.range' first (last + 1 - first)).foldl commit mdbx

/-- The blocks above `start` were committed one after the other, up to the tip. -/
structure Consecutive (start : Nat) (mdbx : Mdbx) : Prop where
  le_tip : start ≤ mdbx.tip
  above_tip : ∀ commit ∈ mdbx.commits, commit.2 = commit.1 + 1
  blocks : mdbx.commits.map Prod.snd = List.range' (start + 1) (mdbx.tip - start)

variable {mdbx : Mdbx} {start : Nat}

theorem Consecutive.commit (h : mdbx.Consecutive start) :
    (mdbx.commit (mdbx.tip + 1)).Consecutive start where
  le_tip := Nat.le_succ_of_le h.le_tip
  above_tip := by
    intro commit hcommit
    obtain hcommit | hcommit := List.mem_append.mp hcommit
    · exact h.above_tip commit hcommit
    · rw [List.mem_singleton.mp hcommit]
  blocks := by
    have hle := h.le_tip
    have hlen : mdbx.tip + 1 - start = mdbx.tip - start + 1 := by omega
    have hlast : start + 1 + (mdbx.tip - start) = mdbx.tip + 1 := by omega
    simp only [Mdbx.commit, List.map_append, List.map_cons, List.map_nil, h.blocks, hlen]
    rw [List.range'_concat, Nat.one_mul, hlast]

theorem Consecutive.commitBatch (h : mdbx.Consecutive start) {last : Nat} :
    (mdbx.commitBatch (mdbx.tip + 1) last).Consecutive start ∧
      (mdbx.commitBatch (mdbx.tip + 1) last).tip = max mdbx.tip last := by
  have hblocks : ∀ (count : Nat) (mdbx : Mdbx), mdbx.Consecutive start →
      ((List.range' (mdbx.tip + 1) count).foldl Mdbx.commit mdbx).Consecutive start ∧
        ((List.range' (mdbx.tip + 1) count).foldl Mdbx.commit mdbx).tip = mdbx.tip + count := by
    intro count
    induction count with
    | zero => exact fun mdbx h => ⟨h, rfl⟩
    | succ count ih =>
        intro mdbx h
        rw [List.range'_succ, List.foldl_cons]
        obtain ⟨hblocks, htip⟩ := ih _ h.commit
        refine ⟨hblocks, htip.trans ?_⟩
        simp only [Mdbx.commit]
        omega
  obtain ⟨hconsecutive, htip⟩ := hblocks (last + 1 - (mdbx.tip + 1)) mdbx h
  exact ⟨hconsecutive, by rw [Mdbx.commitBatch, htip]; omega⟩

end Mdbx

/-- The driver with its database. -/
structure Driver where
  witnessFromBlock : Nat
  /-- The tip of the database at the start. -/
  startTip : Nat
  l2SafeBlocks : Nat
  ready : Bool
  next : Nat
  mdbx : Mdbx
  /-- `advance_to_witness_from_block` is in its loop and holds the lock. -/
  catchingUp : Bool
  /-- Some call returned an error. -/
  failed : Bool
  /-- The blocks that `try_take_new_block` handed out. -/
  taken : List Nat
deriving DecidableEq

/-- The check of `Driver::new`: the history may be pruned that is needed to build witnesses
from `witness_from_block` on. -/
inductive DriverError where
  | historyPruned (startTip witnessFromBlock : Nat)
deriving DecidableEq

def Driver.new (minimumUnwindSafeDistance : Nat) (config : DriverConfig) (mdbxTip : Nat) :
    Except DriverError Driver :=
  if config.pruner ∧ config.witnessFromBlock ≤ mdbxTip ∧
      minimumUnwindSafeDistance < mdbxTip - config.witnessFromBlock then
    .error (.historyPruned mdbxTip config.witnessFromBlock)
  else .ok {
    witnessFromBlock := config.witnessFromBlock
    startTip := mdbxTip
    l2SafeBlocks := config.l2SafeBlocks
    ready := false
    next := min (max (config.orchestratorCheckpoint + 1) config.witnessFromBlock) (mdbxTip + 1)
    mdbx := ⟨mdbxTip, []⟩
    catchingUp := false
    failed := false
    taken := [] }

/-- How fetching and committing one batch of the catch-up ends. -/
inductive BatchAnswer where
  | committed
  | fetchFailed
  | commitFailed
  | shutdown
deriving DecidableEq

/-- What one round of the catch-up loop meets. -/
inductive CatchUpRound where
  | shutdown
  | headFailed
  /-- The remote head, and an answer for each batch by its first block. -/
  | head (remoteTip : Nat) (answer : Nat → BatchAnswer)

/-- What one call of `try_take_new_block` meets. -/
structure TakeAnswers where
  /-- The witness is in the cold store. -/
  cold : Bool
  head : Option Nat
  fetched : Bool
  /-- The witness was built. -/
  built : Bool
  committed : Bool
  /-- The witness was pushed to the hub. -/
  pushed : Bool
deriving DecidableEq

def catchupBatchSize : Nat := 128

/-- The batches of a round. Each has at least one block, so as many steps as there are
blocks are enough. -/
def catchUpRanges (upper : Nat) : (steps first : Nat) → List (Nat × Nat)
  | 0, _ => []
  | steps + 1, first =>
      if first ≤ upper then
        let last := min (first + (catchupBatchSize - 1)) upper
        (first, last) :: catchUpRanges upper steps (last + 1)
      else []

namespace Driver

/-- A block is handed out. -/
def give (d : Driver) : Driver := { d with taken := d.taken ++ [d.next], next := d.next + 1 }

def fail (d : Driver) : Driver := { d with failed := true, catchingUp := false }

/-- The loop over the batches of a round, and whether all of them were committed. -/
def commitRanges (answer : Nat → BatchAnswer) : List (Nat × Nat) → Driver → Driver × Bool
  | [], d => (d, true)
  | (first, last) :: ranges, d =>
      match answer first with
      | .committed =>
          commitRanges answer ranges
            { d with mdbx := d.mdbx.commitBatch first last, next := last + 1 }
      | .fetchFailed => (d, false)
      | .commitFailed => (d.fail, false)
      | .shutdown => ({ d with catchingUp := false }, false)

/-- The end of the catch-up, if it has reached `witness_from_block`. -/
def finishCatchUp (d : Driver) : Driver :=
  if d.witnessFromBlock ≤ d.next then { d with ready := true, catchingUp := false } else d

/-- Commit what is below `witness_from_block`, as far as the remote tip allows. -/
def catchUpRound (d : Driver) : CatchUpRound → Driver
  | .shutdown => { d with catchingUp := false }
  | .headFailed => d
  | .head remoteTip answer =>
      let upper := min (remoteTip - d.l2SafeBlocks) (d.witnessFromBlock - 1)
      if upper < d.next then d
      else
        let result := commitRanges answer (catchUpRanges upper (upper + 1 - d.next) d.next) d
        if result.2 then result.1.finishCatchUp else result.1

/-- A block that is committed already. -/
def rewitness (d : Driver) (answers : TakeAnswers) : Driver :=
  if answers.cold then d.give
  else if !answers.fetched then d
  else if !(answers.built && answers.pushed) then d.fail
  else d.give

/-- A block behind the tip at the start. The witness is built before the block is
committed. -/
def followTip (d : Driver) (answers : TakeAnswers) : Driver :=
  match answers.head with
  | none => d
  | some remoteTip =>
      if remoteTip - d.l2SafeBlocks < d.next then d
      else if !answers.fetched then d
      else if !(answers.built && answers.committed) then d.fail
      else
        let d := { d with mdbx := d.mdbx.commit d.next }
        if answers.pushed then d.give else d.fail

def tryTakeNewBlock (d : Driver) (answers : TakeAnswers) : Driver :=
  if !d.ready then d
  else if d.next ≤ d.startTip then d.rewitness answers
  else d.followTip answers

end Driver

/-- The calls of the driver, each with what the other components answer in it. -/
inductive DriverEvent where
  /-- `advance_to_witness_from_block` is called. -/
  | advance
  | round (round : CatchUpRound)
  | take (answers : TakeAnswers)

/-- One step of the driver, unless an error has ended the run. -/
def Driver.step (d : Driver) (event : DriverEvent) : Option Driver :=
  if d.failed then none
  else match event with
    | .advance =>
        if d.catchingUp then none
        else if d.witnessFromBlock ≤ d.next then some { d with ready := true }
        else some { d with catchingUp := true }
    | .round round => if d.catchingUp then some (d.catchUpRound round) else none
    | .take answers => some (d.tryTakeNewBlock answers)

namespace Driver

/-- Where the cursor stands. -/
structure Cursor (checkpoint : Nat) (d : Driver) : Prop where
  pos : 1 ≤ d.next
  tip : d.mdbx.tip = max d.startTip (d.next - 1)
  ready : d.ready = true →
    d.next = checkpoint + 1 + d.taken.length ∧ d.catchingUp = false
  /-- Before the catch-up is complete nothing is handed out, and all blocks that it skips are
  committed. -/
  waiting : d.ready = false →
    d.taken = [] ∧ d.next ≤ checkpoint + 1 ∧ (d.next ≤ checkpoint → d.startTip < d.next)

/-- The blocks behind the checkpoint are handed out in order, the blocks behind the tip at
the start are committed in order. -/
structure InOrder (checkpoint start : Nat) (d : Driver) : Prop where
  witnessFromBlock : d.witnessFromBlock = if 0 < checkpoint then checkpoint + 1 else 0
  startTip : d.startTip = start
  taken : d.taken = List.range' (checkpoint + 1) d.taken.length
  commits : d.mdbx.Consecutive start
  cursor : d.failed = false → d.Cursor checkpoint

variable {checkpoint start : Nat} {d : Driver}

namespace InOrder

theorem fail (h : d.InOrder checkpoint start) : d.fail.InOrder checkpoint start :=
  ⟨h.witnessFromBlock, h.startTip, h.taken, h.commits, nofun⟩

/-- The next block is handed out when it is committed. -/
theorem give (h : d.InOrder checkpoint start) (hfailed : d.failed = false)
    (hready : d.ready = true) {mdbx : Mdbx} (hcommits : mdbx.Consecutive start)
    (htip : mdbx.tip = max d.startTip d.next) :
    (Driver.give { d with mdbx := mdbx }).InOrder checkpoint start := by
  obtain ⟨hnext, hcatch⟩ := (h.cursor hfailed).ready hready
  have htaken : (Driver.give { d with mdbx := mdbx }).taken.length = d.taken.length + 1 := by
    simp [Driver.give]
  refine ⟨h.witnessFromBlock, h.startTip, ?_, hcommits, fun _ => ?_⟩
  · rw [htaken, List.range'_concat, ← h.taken, Nat.one_mul, ← hnext]
    rfl
  · refine ⟨Nat.le_add_left _ _, htip, fun _ => ⟨?_, hcatch⟩, fun hwaiting => ?_⟩
    · rw [htaken, ← Nat.add_assoc, ← hnext]
      rfl
    · exact absurd (hready.symm.trans hwaiting) nofun

theorem commitRanges {upper : Nat} (hupper : upper ≤ checkpoint) (answer : Nat → BatchAnswer)
    (steps : Nat) (h : d.InOrder checkpoint start) (hfailed : d.failed = false)
    (hready : d.ready = false) :
    let result := Driver.commitRanges answer (catchUpRanges upper steps d.next) d
    result.1.InOrder checkpoint start ∧
      (result.2 = true → result.1.failed = false ∧ result.1.ready = false) := by
  induction steps generalizing d with
  | zero => exact ⟨h, fun _ => ⟨hfailed, hready⟩⟩
  | succ steps ih =>
      rw [catchUpRanges]
      split
      · next hle =>
          have hcursor := h.cursor hfailed
          obtain ⟨htaken, -, hskipped⟩ := hcursor.waiting hready
          have hstart := hskipped (Nat.le_trans hle hupper)
          have htip : d.mdbx.tip + 1 = d.next := by
            have hmax := hcursor.tip
            omega
          simp only [Driver.commitRanges]
          cases answer d.next with
          | committed =>
              have hlast : d.next ≤ min (d.next + (catchupBatchSize - 1)) upper := by omega
              obtain ⟨hcommits, hnewTip⟩ := @Mdbx.Consecutive.commitBatch _ _ h.commits
                (min (d.next + (catchupBatchSize - 1)) upper)
              rw [htip] at hcommits hnewTip
              refine ih (d := { d with
                mdbx := d.mdbx.commitBatch d.next (min (d.next + (catchupBatchSize - 1)) upper)
                next := min (d.next + (catchupBatchSize - 1)) upper + 1 }) ?_ hfailed hready
              refine ⟨h.witnessFromBlock, h.startTip, h.taken, hcommits, fun _ => ?_⟩
              refine ⟨Nat.le_add_left _ _, ?_, fun h => by simp [hready] at h, fun _ => ?_⟩
              · simp only [hnewTip]
                omega
              · refine ⟨htaken, ?_, ?_⟩
                · simp only
                  omega
                · simp only
                  omega
          | fetchFailed => exact ⟨h, nofun⟩
          | commitFailed => exact ⟨h.fail, nofun⟩
          | shutdown =>
              refine ⟨⟨h.witnessFromBlock, h.startTip, h.taken, h.commits, fun _ => ?_⟩, nofun⟩
              exact ⟨hcursor.pos, hcursor.tip, fun h => by simp [hready] at h, hcursor.waiting⟩
      · exact ⟨h, fun _ => ⟨hfailed, hready⟩⟩

variable (h : d.InOrder checkpoint start)

include h

/-- The catch-up ends exactly at the first block to hand out. -/
theorem finishCatchUp (hfailed : d.failed = false) (hready : d.ready = false) :
    d.finishCatchUp.InOrder checkpoint start := by
  rw [Driver.finishCatchUp]
  split
  · next hreached =>
      have hcursor := h.cursor hfailed
      obtain ⟨htaken, hle, -⟩ := hcursor.waiting hready
      refine ⟨h.witnessFromBlock, h.startTip, h.taken, h.commits, fun _ => ?_⟩
      refine ⟨hcursor.pos, hcursor.tip, fun _ => ⟨?_, rfl⟩, nofun⟩
      have hpos := hcursor.pos
      rw [h.witnessFromBlock] at hreached
      simp only [htaken, List.length_nil]
      split at hreached <;> omega
  · exact h

theorem stopCatchUp :
    Driver.InOrder checkpoint start { d with catchingUp := false } := by
  refine ⟨h.witnessFromBlock, h.startTip, h.taken, h.commits, fun hfailed => ?_⟩
  have hcursor := h.cursor hfailed
  exact ⟨hcursor.pos, hcursor.tip, fun hready => ⟨(hcursor.ready hready).1, rfl⟩, hcursor.waiting⟩

theorem catchUpRound (hfailed : d.failed = false) (hready : d.ready = false) (round : CatchUpRound)
    :
    (d.catchUpRound round).InOrder checkpoint start := by
  cases round with
  | shutdown => exact h.stopCatchUp
  | headFailed => exact h
  | head remoteTip answer =>
      simp only [Driver.catchUpRound]
      split
      · exact h
      · have hupper : min (remoteTip - d.l2SafeBlocks) (d.witnessFromBlock - 1) ≤ checkpoint := by
          rw [h.witnessFromBlock]
          split <;> omega
        obtain ⟨hresult, hdone⟩ := h.commitRanges hupper answer
          (min (remoteTip - d.l2SafeBlocks) (d.witnessFromBlock - 1) + 1 - d.next) hfailed hready
        split
        · next hcomplete => exact hresult.finishCatchUp (hdone hcomplete).1 (hdone hcomplete).2
        · exact hresult

theorem rewitness (hfailed : d.failed = false) (hready : d.ready = true) (hle : d.next ≤ d.startTip)
    (answers : TakeAnswers) :
    (d.rewitness answers).InOrder checkpoint start := by
  have hgive : d.give.InOrder checkpoint start := by
    refine h.give hfailed hready h.commits ?_
    rw [(h.cursor hfailed).tip]
    omega
  rw [Driver.rewitness]
  split
  · exact hgive
  · split
    · exact h
    · split
      · exact h.fail
      · exact hgive

theorem followTip (hfailed : d.failed = false) (hready : d.ready = true) (hlt : d.startTip < d.next)
    (answers : TakeAnswers) :
    (d.followTip answers).InOrder checkpoint start := by
  have htip : d.mdbx.tip + 1 = d.next := by
    have hmax := (h.cursor hfailed).tip
    omega
  have hcommits : (d.mdbx.commit d.next).Consecutive start := htip ▸ h.commits.commit
  rw [Driver.followTip]
  cases answers.head with
  | none => exact h
  | some remoteTip =>
      simp only
      split
      · exact h
      · split
        · exact h
        · split
          · exact h.fail
          · -- the block is committed, whether or not it can be handed out then
            split
            · refine h.give hfailed hready hcommits ?_
              simp only [Mdbx.commit]
              omega
            · exact ⟨h.witnessFromBlock, h.startTip, h.taken, hcommits, nofun⟩

theorem step {event : DriverEvent} {e : Driver} (hstep : d.step event = some e) :
    e.InOrder checkpoint start := by
  unfold Driver.step at hstep
  split at hstep
  · cases hstep
  next hfailed =>
  rw [Bool.not_eq_true] at hfailed
  have hcursor := h.cursor hfailed
  cases event with
  | advance =>
      simp only at hstep
      split at hstep
      · cases hstep
      next hcatch =>
      rw [Bool.not_eq_true] at hcatch
      cases hready : d.ready with
      | true =>
          have hreached : d.witnessFromBlock ≤ d.next := by
            have hnext := (hcursor.ready hready).1
            rw [h.witnessFromBlock]
            split <;> omega
          rw [if_pos hreached, Option.some.injEq, ← hready] at hstep
          exact hstep ▸ h
      | false =>
          have hfinish := h.finishCatchUp hfailed hready
          rw [Driver.finishCatchUp] at hfinish
          split at hstep
          · next hreached =>
              rw [if_pos hreached, ← hcatch] at hfinish
              exact Option.some.inj hstep ▸ hfinish
          · rw [← Option.some.inj hstep]
            refine ⟨h.witnessFromBlock, h.startTip, h.taken, h.commits, fun _ => ?_⟩
            exact ⟨hcursor.pos, hcursor.tip, fun h => absurd (hready.symm.trans h) nofun,
              hcursor.waiting⟩
  | round round =>
      simp only at hstep
      split at hstep
      · next hcatch =>
          have hready : d.ready = false := by
            rw [← Bool.not_eq_true]
            exact fun hready => absurd ((hcursor.ready hready).2.symm.trans hcatch) nofun
          exact Option.some.inj hstep ▸ h.catchUpRound hfailed hready round
      · cases hstep
  | take answers =>
      rw [← Option.some.inj hstep, tryTakeNewBlock]
      split
      · exact h
      · next hready =>
          have hready : d.ready = true := by simpa using hready
          split
          · next hle => exact h.rewitness hfailed hready hle answers
          · next hlt => exact h.followTip hfailed hready (Nat.lt_of_not_le hlt) answers

end InOrder
end Driver

section Sample

end Sample

end FluentStf.Orchestrator
