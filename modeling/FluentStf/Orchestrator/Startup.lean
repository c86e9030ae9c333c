import FluentStf.Orchestrator.Db

/-! What `main` does with the database before the orchestrator runs: it resolves the start
checkpoint, and it walks over the pending batches to find a checkpoint that skips no
block. Block numbers are natural numbers without wrap-around, as in `Db`. -/
namespace FluentStf.Orchestrator

structure Config where
  envStartBatchId : Option Nat
  l1DeployBlock : Nat
  /-- `resolve_l2_start_checkpoint`: the first block of a batch, and the L1 block that
  commits the batch. -/
  resolve : Nat → Nat × Nat

/-- The checkpoint before the start batch. -/
def Config.startCheckpoint (config : Config) : Option Nat → Nat
  | none => 0
  | some batchId => (config.resolve batchId).1 - 1

/-- What the walk decides: where to start, and which signatures are of no use. -/
structure StartupCheckpointResult where
  newCkpt : Nat
  staleSignatureIndexes : List Nat
  /-- The first missing block of an unsigned pending batch. -/
  earliestGap : Option Nat
deriving DecidableEq

section Walk

variable (hasResponse signed : Nat → Bool)

/-- The loop over the blocks of an unsigned batch, until a response is missing. -/
def scanBlocks (newCkpt : Nat) : List Nat → Nat × Option Nat
  | [] => (newCkpt, none)
  | b :: blocks => if hasResponse b then scanBlocks b blocks else (b - 1, some b)

/-- The walk ends at the first block without a response in a batch without a signature. -/
def normalizeStartupCheckpoint (currentCkpt : Nat) :
    List (Nat × PendingBatch) → StartupCheckpointResult
  | [] => ⟨currentCkpt, [], none⟩
  | (batchIndex, batch) :: pending =>
      if signed batchIndex then normalizeStartupCheckpoint batch.toBlock pending
      else match scanBlocks hasResponse currentCkpt (blocks batch.fromBlock batch.toBlock) with
        | (newCkpt, none) => normalizeStartupCheckpoint newCkpt pending
        | (newCkpt, some gap) =>
            ⟨newCkpt, (((batchIndex, batch) :: pending).map Prod.fst).filter signed, some gap⟩

variable {hasResponse signed} {newCkpt currentCkpt : Nat}

theorem scanBlocks_none {blocks : List Nat}
    (h : scanBlocks hasResponse currentCkpt blocks = (newCkpt, none)) :
    (∀ b ∈ blocks, hasResponse b) ∧ (newCkpt = currentCkpt ∨ newCkpt ∈ blocks) := by
  induction blocks generalizing currentCkpt with
  | nil =>
      cases h
      exact ⟨by simp, .inl rfl⟩
  | cons b blocks ih =>
      rw [scanBlocks] at h
      split at h
      · next hb =>
          obtain ⟨hall, hlast⟩ := ih h
          refine ⟨by simpa [hb] using hall, .inr ?_⟩
          obtain rfl | hlast := hlast
          · exact .head _
          · exact .tail _ hlast
      · cases h

theorem scanBlocks_some {blocks : List Nat} {gap : Nat} (hsorted : blocks.Pairwise (· < ·))
    (h : scanBlocks hasResponse currentCkpt blocks = (newCkpt, some gap)) :
    newCkpt = gap - 1 ∧ gap ∈ blocks ∧ ∀ b ∈ blocks, b < gap → hasResponse b := by
  induction blocks generalizing currentCkpt with
  | nil => cases h
  | cons b blocks ih =>
      obtain ⟨hhead, htail⟩ := List.pairwise_cons.mp hsorted
      rw [scanBlocks] at h
      split at h
      · next hb =>
          obtain ⟨hnew, hgap, hbefore⟩ := ih htail h
          exact ⟨hnew, .tail _ hgap, by simpa [hb] using hbefore⟩
      · cases h
        refine ⟨rfl, .head _, fun c hc hlt => ?_⟩
        obtain rfl | hc := List.mem_cons.mp hc
        · omega
        · exact absurd (hhead c hc) (by omega)

variable {pending : List (Nat × PendingBatch)}

theorem stale_subset :
    ∀ i ∈ (normalizeStartupCheckpoint hasResponse signed currentCkpt pending).staleSignatureIndexes,
      i ∈ pending.map Prod.fst := by
  induction pending generalizing currentCkpt with
  | nil => simp [normalizeStartupCheckpoint]
  | cons row pending ih =>
      intro i hi
      rw [normalizeStartupCheckpoint] at hi
      split at hi
      · exact .tail _ (ih i hi)
      · split at hi
        · exact .tail _ (ih i hi)
        · exact (List.mem_filter.mp hi).1

theorem stale_eq_nil
    (h : (normalizeStartupCheckpoint hasResponse signed currentCkpt pending).earliestGap = none) :
    (normalizeStartupCheckpoint hasResponse signed currentCkpt pending).staleSignatureIndexes =
      [] := by
  induction pending generalizing currentCkpt with
  | nil => rfl
  | cons row pending ih =>
      rw [normalizeStartupCheckpoint] at h ⊢
      split at h
      · next hsigned =>
          rw [if_pos hsigned]
          exact ih h
      · next hsigned =>
          rw [if_neg hsigned]
          split at h
          · exact ih h
          · cases h

/-- Pending batches in order: the ranges do not overlap, and no batch has the genesis
block. -/
def Ascending (pending : List (Nat × PendingBatch)) : Prop :=
  pending.Pairwise (fun a b => a.1 ≠ b.1 ∧ a.2.toBlock < b.2.fromBlock) ∧
    ∀ row ∈ pending, 0 < row.2.fromBlock

theorem blocks_pairwise (fromBlock toBlock : Nat) : (blocks fromBlock toBlock).Pairwise (· < ·) :=
  List.pairwise_lt_range'

/-- The walk leaves no gap below the new checkpoint: a block of a pending batch that is not
above it has a response, or the signature of the batch is kept. -/
theorem normalizeStartupCheckpoint_covers (hpending : Ascending pending) :
    ∀ row ∈ pending, ∀ b, row.2.fromBlock ≤ b → b ≤ row.2.toBlock →
      b ≤ (normalizeStartupCheckpoint hasResponse signed currentCkpt pending).newCkpt →
      hasResponse b ∨ signed row.1 ∧ row.1 ∉
        (normalizeStartupCheckpoint hasResponse signed currentCkpt
          pending).staleSignatureIndexes := by
  induction pending generalizing currentCkpt with
  | nil => simp
  | cons first pending ih =>
      obtain ⟨hpairwise, hpositive⟩ := hpending
      obtain ⟨hhead, htail⟩ := List.pairwise_cons.mp hpairwise
      have hrest : Ascending pending :=
        ⟨htail, fun row hrow => hpositive row (.tail _ hrow)⟩
      intro row hrow b hfrom hto hle
      rw [normalizeStartupCheckpoint] at hle ⊢
      split at hle
      · next hsigned =>
          rw [if_pos hsigned]
          obtain rfl | hrow := List.mem_cons.mp hrow
          · refine .inr ⟨hsigned, fun hstale => ?_⟩
            obtain ⟨other, hother, heq⟩ := List.mem_map.mp (stale_subset _ hstale)
            exact (hhead other hother).1 heq.symm
          · exact ih hrest row hrow b hfrom hto hle
      · next hsigned =>
          rw [if_neg hsigned]
          split at hle
          · next newCkpt hscan =>
              obtain rfl | hrow := List.mem_cons.mp hrow
              · exact .inl ((scanBlocks_none hscan).1 b (mem_blocks.mpr ⟨hfrom, hto⟩))
              · exact ih hrest row hrow b hfrom hto hle
          · next newCkpt gap hscan =>
              -- the gap is the first missing block of this batch, and later batches are above it
              obtain ⟨rfl, hgap, hbefore⟩ := scanBlocks_some (blocks_pairwise ..) hscan
              rw [mem_blocks] at hgap
              have hfirst := hpositive first (.head _)
              have hle : b ≤ gap - 1 := hle
              obtain rfl | hrow := List.mem_cons.mp hrow
              · exact .inl (hbefore b (mem_blocks.mpr ⟨hfrom, hto⟩) (by omega))
              · have hlater := (hhead row hrow).2
                omega

/-- A checkpoint that the walk takes from a batch. -/
def PendingBatch.Bounds (batch : PendingBatch) (ckpt : Nat) : Prop :=
  min (batch.fromBlock - 1) batch.toBlock ≤ ckpt ∧ ckpt ≤ batch.toBlock

/-- The new checkpoint is the old one or lies in a pending batch. -/
theorem newCkpt_bounds :
    (normalizeStartupCheckpoint hasResponse signed currentCkpt pending).newCkpt = currentCkpt ∨
      ∃ row ∈ pending,
        row.2.Bounds (normalizeStartupCheckpoint hasResponse signed currentCkpt
          pending).newCkpt := by
  induction pending generalizing currentCkpt with
  | nil => exact .inl rfl
  | cons first pending ih =>
      -- the value that the walk goes on with lies in the first batch, or is the old one
      have hrest : ∀ ckpt, ckpt = currentCkpt ∨ first.2.Bounds ckpt →
          (normalizeStartupCheckpoint hasResponse signed ckpt pending).newCkpt = currentCkpt ∨
            ∃ row ∈ first :: pending,
              row.2.Bounds (normalizeStartupCheckpoint hasResponse signed ckpt
                pending).newCkpt := by
        intro ckpt hckpt
        obtain heq | ⟨row, hrow, hbounds⟩ := @ih ckpt
        · rw [heq]
          exact hckpt.imp_right fun hbounds => ⟨first, .head _, hbounds⟩
        · exact .inr ⟨row, .tail _ hrow, hbounds⟩
      rw [normalizeStartupCheckpoint]
      split
      · exact hrest _ (.inr ⟨min_le_right .., le_rfl⟩)
      · split
        · next newCkpt hscan =>
            refine hrest _ ((scanBlocks_none hscan).2.imp_right fun hmem => ?_)
            rw [mem_blocks] at hmem
            exact ⟨by omega, hmem.2⟩
        · next newCkpt gap hscan =>
            obtain ⟨rfl, hgap, _⟩ := scanBlocks_some (blocks_pairwise ..) hscan
            rw [mem_blocks] at hgap
            refine .inr ⟨first, .head _, ?_⟩
            show min _ _ ≤ gap - 1 ∧ gap - 1 ≤ first.2.toBlock
            omega

end Walk

namespace Db

variable (config : Config) (db : Db)

/-- The checkpoint is resolved from L1 as long as it is 0. The start of the database, which
the handler of a revert leaves there, goes before the one of the environment. -/
def resolveWrites : List Write :=
  match db.startBatchId.or config.envStartBatchId with
  | none => []
  | some batchId =>
      if db.getCheckpoint ≠ 0 then []
      else
        let (l2FromBlock, l1EventBlock) := config.resolve batchId
        let l2Checkpoint := l2FromBlock - 1
        [.saveCheckpoint l2Checkpoint] ++
          (if db.startBatchId.isNone then [.saveL1Checkpoint (l1EventBlock - 1)] else []) ++
          (if db.lastBatchEnd.isNone then [.saveLastBatchEnd l2Checkpoint] else []) ++
          (if db.startBatchId.isSome then [.clearStartBatchId] else [])

def normalized : StartupCheckpointResult :=
  normalizeStartupCheckpoint db.blockResponses.contains db.batchSignatures.contains
    db.getCheckpoint db.pendingBatches.toList

def normalizeWrites : List Write :=
  (match db.normalized.earliestGap with
    | some _ => db.normalized.staleSignatureIndexes.map .deleteBatchSignature
    | none => []) ++
  (if db.normalized.newCkpt ≠ db.getCheckpoint then [.saveCheckpoint db.normalized.newCkpt]
    else [])

theorem normalizeWrites_of_empty {db : Db} (h : db.pendingBatches = ∅) :
    db.normalizeWrites = [] := by
  have hnormalized : db.normalized = ⟨db.getCheckpoint, [], none⟩ := by
    rw [normalized, h]
    rfl
  simp [normalizeWrites, hnormalized]

/-- The checkpoint that a process starts from: the stored one, or else what its start batch
resolves to. -/
def startCheckpoint : Nat :=
  if db.getCheckpoint ≠ 0 then db.getCheckpoint
  else config.startCheckpoint (db.startBatchId.or config.envStartBatchId)

/-- All writes of the startup, in order. -/
def startupWrites : List Write :=
  db.resolveWrites config ++ (db.applyAll (db.resolveWrites config)).normalizeWrites

theorem getCheckpoint_resolveWrites :
    (db.applyAll (db.resolveWrites config)).getCheckpoint = db.startCheckpoint config := by
  rw [resolveWrites, startCheckpoint]
  cases hstart : db.startBatchId.or config.envStartBatchId with
  | none =>
      by_cases hzero : db.getCheckpoint = 0 <;> simp [hzero, Config.startCheckpoint]
  | some batchId =>
      simp only
      split
      · rfl
      · simp only [applyAll_append]
        split <;> split <;> split <;> rfl

def witnessFromBlock : Nat := if 0 < db.getCheckpoint then db.getCheckpoint + 1 else 0

def listenerFromBlock : Nat :=
  match db.l1Checkpoint with
  | some ckpt => max (ckpt + 1) config.l1DeployBlock
  | none => config.l1DeployBlock

end Db

end FluentStf.Orchestrator
