import FluentStf.Orchestrator.Hub

/-! The unwind at startup. The local chain and the witness store are taken back to the
checkpoint of the orchestrator, unless the operator asks for another block. Heights are natural
numbers without wrap-around. -/
namespace FluentStf.Orchestrator

/-- The local chain and the store beside it. -/
structure ChainState where
  mdbxTip : Nat
  hub : WitnessHub

section Unwind

-- `remove_block_and_execution_above`: the tip after the removal, by the tip before it and the
-- block to keep
variable (removeAbove : Nat → Nat → Nat)

/-- The block `target` itself is removed as well. -/
def unwindTo (s : ChainState) (target : Nat) : ChainState :=
  if target = 0 then s
  else if s.mdbxTip < target then s
  else if target = s.mdbxTip then s
  else
    let keep := target - 1
    ⟨removeAbove s.mdbxTip keep, (s.hub.unwindAbove keep).1⟩

/-- The target of the unwind: the one of the operator, or else the checkpoint if the chain is
ahead of it. -/
def unwindTarget (unwindToBlock : Option Nat) (orchestratorCheckpoint mdbxTip : Nat) :
    Option Nat :=
  match unwindToBlock with
  | some target => some target
  | none =>
      if 0 < orchestratorCheckpoint then
        if orchestratorCheckpoint < mdbxTip then some orchestratorCheckpoint else none
      else none

def startupUnwind (unwindToBlock : Option Nat) (orchestratorCheckpoint : Nat) (s : ChainState) :
    ChainState :=
  match unwindTarget unwindToBlock orchestratorCheckpoint s.mdbxTip with
  | some target => unwindTo removeAbove s target
  | none => s

end Unwind

/-- The checkpoint block is kept and everything above it is dropped. -/
def KeepsCheckpointBlock (checkpoint : Nat) (before after : ChainState) : Prop :=
  after.mdbxTip = min before.mdbxTip checkpoint ∧
    (checkpoint < before.mdbxTip → ∀ n, after.hub.cold[n]? =
      if n ≤ checkpoint then before.hub.cold[n]? else none)

section Automatic

variable {removeAbove : Nat → Nat → Nat} {checkpoint : Nat} {s : ChainState}

theorem startupUnwind_of_le (h : s.mdbxTip ≤ checkpoint) :
    startupUnwind removeAbove none checkpoint s = s := by
  simp [startupUnwind, unwindTarget, Nat.not_lt_of_le h]

/-- A chain ahead of the checkpoint is taken back to the block before it. -/
theorem startupUnwind_of_lt (hpositive : 0 < checkpoint) (h : checkpoint < s.mdbxTip) :
    startupUnwind removeAbove none checkpoint s =
      ⟨removeAbove s.mdbxTip (checkpoint - 1), (s.hub.unwindAbove (checkpoint - 1)).1⟩ := by
  have hzero : checkpoint ≠ 0 := by omega
  have habove : ¬ s.mdbxTip < checkpoint := by omega
  have hne : checkpoint ≠ s.mdbxTip := by omega
  simp [startupUnwind, unwindTarget, unwindTo, hpositive, h, hzero, habove, hne]

/-- The checkpoint block is kept exactly if the chain is not ahead of it. Of the removal it is
assumed that a block below the tip becomes the tip. -/
theorem checkpoint_block_kept_iff
    (hremove : ∀ tip keep, keep < tip → removeAbove tip keep = keep) (hpositive : 0 < checkpoint) :
    KeepsCheckpointBlock checkpoint s (startupUnwind removeAbove none checkpoint s) ↔
      s.mdbxTip ≤ checkpoint := by
  constructor
  · intro hkeeps
    by_contra hlt
    have htip := hkeeps.1
    rw [startupUnwind_of_lt hpositive (Nat.lt_of_not_le hlt)] at htip
    simp only [hremove s.mdbxTip (checkpoint - 1) (by omega)] at htip
    omega
  · intro hle
    rw [startupUnwind_of_le hle]
    exact ⟨(Nat.min_eq_left hle).symm, fun hlt => absurd hle (Nat.not_le_of_lt hlt)⟩

end Automatic

section Sample

/-- Blocks 4, 5 and 6 have witnesses, and the chain ends with block 6. -/
def aheadOfCheckpoint : ChainState where
  mdbxTip := 6
  hub := ⟨((∅ : Std.ExtTreeMap Nat Bytes).insert 4 [1] |>.insert 5 [2]).insert 6 [3], some 3, []⟩

theorem checkpoint_block_kept_at_tip :
    KeepsCheckpointBlock 6 aheadOfCheckpoint
      (startupUnwind (fun _ keep => keep) none 6 aheadOfCheckpoint) :=
  (checkpoint_block_kept_iff (fun _ _ _ => rfl) (by decide)).mpr (by decide)

/-- With the checkpoint at block 5, the chain ends with block 4 and the witness of block 5 is
gone. -/
theorem checkpoint_block_removed :
    ¬ KeepsCheckpointBlock 5 aheadOfCheckpoint
        (startupUnwind (fun _ keep => keep) none 5 aheadOfCheckpoint) ∧
      (startupUnwind (fun _ keep => keep) none 5 aheadOfCheckpoint).mdbxTip = 4 ∧
      aheadOfCheckpoint.hub.cold[5]? = some [2] ∧
      (startupUnwind (fun _ keep => keep) none 5 aheadOfCheckpoint).hub.cold[5]? = none := by
  have hafter := @startupUnwind_of_lt (fun _ keep => keep) 5 aheadOfCheckpoint (by decide)
    (by decide)
  rw [hafter]
  refine ⟨fun hkeeps => absurd hkeeps.1 (by decide), rfl, ?_, ?_⟩
  · simp only [aheadOfCheckpoint, Std.ExtTreeMap.getElem?_insert]
    rfl
  · simp [WitnessHub.getElem?_unwindAbove]

end Sample

end FluentStf.Orchestrator
