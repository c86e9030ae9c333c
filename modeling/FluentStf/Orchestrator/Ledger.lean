import Mathlib.Order.Monotone.Basic
import FluentStf.Orchestrator.Restart
import FluentStf.Orchestrator.Turn

/-! Which writes keep the books: as long as every write of the orchestrator is lawful, no
batch that was registered gets lost, and every block up to the checkpoint that no batch
has is stored. -/
namespace FluentStf.Orchestrator

open Std

/-- The batches of the chain in order, with consecutive block ranges. -/
structure Layout where
  index : Nat → Nat
  /-- The last block before a batch. -/
  bound : Nat → Nat
  index_strictMono : StrictMono index
  bound_mono : Monotone bound

namespace Layout

variable (layout : Layout)

/-- Batch `j` in order has this index and these blocks. -/
def Places (j batchIndex fromBlock toBlock : Nat) : Prop :=
  batchIndex = layout.index j ∧ fromBlock = layout.bound j + 1 ∧ toBlock = layout.bound (j + 1)

/-- The rows of a table are among the first `n` batches. -/
def Holds (n : Nat) {α : Type} (range : α → Nat × Nat) : ExtTreeMap Nat α → Prop :=
  All fun i row => ∃ j < n, layout.Places j i (range row).1 (range row).2

variable {layout}

theorem bound_le {j n : Nat} (h : j < n) : layout.bound (j + 1) ≤ layout.bound n :=
  layout.bound_mono h

theorem Holds.mono {n m : Nat} {α : Type} {range : α → Nat × Nat} {table : ExtTreeMap Nat α}
    (h : layout.Holds n range table) (hnm : n ≤ m) : layout.Holds m range table := by
  intro i row hrow
  obtain ⟨j, hj, hplace⟩ := h i row hrow
  exact ⟨j, hj.trans_le hnm, hplace⟩

/-- A block of the first `n` batches is in one of them. -/
theorem exists_bound {n b : Nat} (hstart : layout.bound 0 < b) (hend : b ≤ layout.bound n) :
    ∃ j < n, layout.bound j < b ∧ b ≤ layout.bound (j + 1) := by
  induction n with
  | zero => omega
  | succ n ih =>
      by_cases hle : b ≤ layout.bound n
      · obtain ⟨j, hj, hblock⟩ := ih hle
        exact ⟨j, by omega, hblock⟩
      · exact ⟨n, by omega, by omega, hend⟩

end Layout

def PendingBatch.range (batch : PendingBatch) : Nat × Nat := (batch.fromBlock, batch.toBlock)

/-- The first `n` batches are registered. Each is pending, dispatched or finalized. -/
structure Accounts (layout : Layout) (n : Nat) (finalized : List (Nat × Nat × Nat)) (db : Db) :
    Prop where
  pending : layout.Holds n PendingBatch.range db.pendingBatches
  pending_fit : All (fun i batch => RangeFits i batch.fromBlock batch.toBlock) db.pendingBatches
  dispatched : layout.Holds n DispatchedBatch.range db.dispatchedBatches
  dispatched_fit : All (fun i row => RangeFits i row.fromBlock row.toBlock) db.dispatchedBatches
  known : ∀ j < n, layout.index j ∈ db.pendingBatches ∨ layout.index j ∈ db.dispatchedBatches ∨
    (layout.index j, layout.bound j + 1, layout.bound (j + 1)) ∈ finalized
  executed : ∀ b, layout.bound n < b → b ≤ db.getCheckpoint → b ∈ db.blockResponses
  floor : db.getCheckpoint ≠ 0 → layout.bound 0 ≤ db.getCheckpoint
  unanchored : db.startBatchId = none

/-- A write that keeps the accounts. -/
def Write.Lawful (layout : Layout) (n : Nat) (db : Db) : Write → Prop
  | saveCheckpoint k =>
      layout.bound 0 ≤ k ∧ ∀ b, layout.bound n < b → b ≤ k → b ∈ db.blockResponses
  | deleteResponsesBatch blocks => ∀ b ∈ blocks, b ≤ layout.bound n
  | saveBatch i batch => ∃ j ≤ n, layout.Places j i batch.fromBlock batch.toBlock
  | moveToDispatched i first last _ _ _ _ _ | moveToDispatchedExternal i first last _ _
  | finalizeDispatchedBatch i first last | undispatchBatch i first last =>
      ∃ j < n, layout.Places j i first last
  | wipeForRevert _ _ => False
  | _ => True

/-- How many batches are registered after a write. -/
def Write.registered (layout : Layout) (n : Nat) : Write → Nat
  | saveBatch i _ => if i = layout.index n then n + 1 else n
  | _ => n

/-- The batches that were finalized up to this write, with their blocks. -/
def Write.finalized (finalized : List (Nat × Nat × Nat)) : Write → List (Nat × Nat × Nat)
  | finalizeDispatchedBatch i first last => (i, first, last) :: finalized
  | _ => finalized

namespace Accounts

variable {layout : Layout} {n : Nat} {finalized : List (Nat × Nat × Nat)} {db : Db}
  (h : Accounts layout n finalized db)

include h

theorem saveCheckpoint {k : Nat} (hlawful : (Write.saveCheckpoint k).Lawful layout n db) :
    Accounts layout n finalized (db.saveCheckpoint k) :=
  { h with
    executed := hlawful.2
    floor := fun _ => hlawful.1 }

theorem saveResponse {resp : Nitro.EthExecutionResponse} (hfits : (Write.saveResponse resp).Fits) :
    Accounts layout n finalized (db.saveResponse resp) := by
  simp only [Write.Fits, Write.params] at hfits
  rw [Db.saveResponse, Db.execute_of_fits hfits]
  exact { h with executed := fun b hb hle =>
    ExtTreeMap.mem_insert.mpr (.inr (h.executed b hb hle)) }

/-- Only blocks of registered batches are removed. -/
theorem eraseResponses {responses : ExtTreeMap Nat Nitro.EthExecutionResponse}
    (hkept : ∀ b, layout.bound n < b → b ∈ db.blockResponses → b ∈ responses) :
    Accounts layout n finalized { db with blockResponses := responses } :=
  { h with executed := fun b hb hle => hkept b hb (h.executed b hb hle) }

/-- A batch that was pending is dispatched. -/
theorem dispatch {i j : Nat} (row : DispatchedBatch) (hj : j < n)
    (hplace : layout.Places j i row.fromBlock row.toBlock)
    (hfits : RangeFits i row.fromBlock row.toBlock) :
    Accounts layout n finalized { db with
      pendingBatches := db.pendingBatches.erase i
      dispatchedBatches := db.dispatchedBatches.insert i row } := by
  refine { h with
    pending := All.erase h.pending i
    pending_fit := h.pending_fit.erase i
    dispatched := All.insert h.dispatched ⟨j, hj, hplace⟩
    dispatched_fit := h.dispatched_fit.insert hfits
    known := fun k hk => ?_ }
  rw [ExtTreeMap.mem_erase, ExtTreeMap.mem_insert]
  obtain hmem | hmem | hmem := h.known k hk
  · by_cases hik : compare i (layout.index k) = .eq
    · exact .inr (.inl (.inl hik))
    · exact .inl ⟨hik, hmem⟩
  · exact .inr (.inl (.inr hmem))
  · exact .inr (.inr hmem)

theorem undispatch {i j : Nat} {batch : PendingBatch} (hj : j < n)
    (hplace : layout.Places j i batch.fromBlock batch.toBlock)
    (hfits : RangeFits i batch.fromBlock batch.toBlock) :
    Accounts layout n finalized { db with
      dispatchedBatches := db.dispatchedBatches.erase i
      pendingBatches := db.pendingBatches.insert i batch } := by
  refine { h with
    pending := All.insert h.pending ⟨j, hj, hplace⟩
    pending_fit := h.pending_fit.insert hfits
    dispatched := All.erase h.dispatched i
    dispatched_fit := h.dispatched_fit.erase i
    known := fun k hk => ?_ }
  rw [ExtTreeMap.mem_erase, ExtTreeMap.mem_insert]
  obtain hmem | hmem | hmem := h.known k hk
  · exact .inl (.inr hmem)
  · by_cases hik : compare i (layout.index k) = .eq
    · exact .inl (.inl hik)
    · exact .inr (.inl ⟨hik, hmem⟩)
  · exact .inr (.inr hmem)

theorem finalize {i j first last : Nat} (hj : j < n) (hplace : layout.Places j i first last) :
    Accounts layout n ((i, first, last) :: finalized) { db with
      dispatchedBatches := db.dispatchedBatches.erase i
      blockResponses := db.blockResponses.filter fun b _ => !(first ≤ b && b ≤ last)
      batchSignatures := db.batchSignatures.erase i } := by
  obtain ⟨rfl, rfl, rfl⟩ := hplace
  refine { h with
    dispatched := All.erase h.dispatched _
    dispatched_fit := h.dispatched_fit.erase _
    known := fun k hk => ?_
    executed := fun b hb hle => ?_ }
  · rw [ExtTreeMap.mem_erase, List.mem_cons]
    obtain hmem | hmem | hmem := h.known k hk
    · exact .inl hmem
    · by_cases hik : compare (layout.index j) (layout.index k) = .eq
      · cases layout.index_strictMono.injective (LawfulEqCmp.eq_of_compare hik)
        exact .inr (.inr (.inl rfl))
      · exact .inr (.inl ⟨hik, hmem⟩)
    · exact .inr (.inr (.inr hmem))
  · have hmem := h.executed b hb hle
    rw [ExtTreeMap.mem_iff_isSome_getElem?] at hmem ⊢
    have hlast := layout.bound_le hj
    rw [getElem?_filter_key, if_pos (by simp; omega)]
    exact hmem

/-- A batch is registered, or registered again. -/
theorem saveBatch {i : Nat} {batch : PendingBatch}
    (hlawful : ∃ j ≤ n, layout.Places j i batch.fromBlock batch.toBlock)
    (hfits : RangeFits i batch.fromBlock batch.toBlock) :
    Accounts layout ((Write.saveBatch i batch).registered layout n) finalized
      { db with pendingBatches := db.pendingBatches.insert i batch } := by
  obtain ⟨j, hj, hplace⟩ := hlawful
  have hle : n ≤ (Write.saveBatch i batch).registered layout n := by
    simp only [Write.registered]
    split <;> omega
  have hlt : j < (Write.saveBatch i batch).registered layout n := by
    simp only [Write.registered, hplace.1]
    obtain rfl | hlt := Nat.eq_or_lt_of_le hj
    · simp
    · split <;> omega
  refine { h with
    pending := All.insert (h.pending.mono hle) ⟨j, hlt, hplace⟩
    pending_fit := h.pending_fit.insert hfits
    dispatched := h.dispatched.mono hle
    known := fun k hk => ?_
    executed := fun b hb => h.executed b ((layout.bound_mono hle).trans_lt hb) }
  rw [ExtTreeMap.mem_insert]
  by_cases hkn : k < n
  · exact (h.known k hkn).imp_left .inr
  · refine .inl (.inl ?_)
    simp only [Write.registered] at hk
    split at hk
    · next heq =>
        have hk : k = n := by omega
        simp [hk, heq]
    · omega

/-- A statement that changes other columns only. -/
theorem congr {db' : Db} (hpending : db'.pendingBatches = db.pendingBatches)
    (hdispatched : db'.dispatchedBatches = db.dispatchedBatches)
    (hresponses : db'.blockResponses = db.blockResponses)
    (hcheckpoint : db'.checkpoint = db.checkpoint)
    (hstart : db'.startBatchId = none) : Accounts layout n finalized db' where
  pending := hpending ▸ h.pending
  pending_fit := hpending ▸ h.pending_fit
  dispatched := hdispatched ▸ h.dispatched
  dispatched_fit := hdispatched ▸ h.dispatched_fit
  known := hpending ▸ hdispatched ▸ h.known
  executed := by
    rw [Db.getCheckpoint, hcheckpoint, hresponses]
    exact h.executed
  floor := by
    rw [Db.getCheckpoint, hcheckpoint]
    exact h.floor
  unanchored := hstart

/-- Lawful writes keep the accounts. -/
theorem write {write : Write} (hfits : write.Fits) (hlawful : write.Lawful layout n db) :
    Accounts layout (write.registered layout n) (write.finalized finalized) (write.apply db) := by
  cases write with
  | saveCheckpoint => exact h.saveCheckpoint hlawful
  | saveL1Checkpoint | saveLastBatchEnd => exact h.congr rfl rfl rfl rfl h.unanchored
  | clearStartBatchId => exact h.congr rfl rfl rfl rfl rfl
  | wipeForRevert => exact hlawful.elim
  | saveResponse => exact h.saveResponse hfits
  | deleteResponsesBatch blocks =>
      simp only [Write.Fits, Write.params] at hfits
      rw [Write.apply, Db.deleteResponsesBatch_of_fits hfits]
      refine h.eraseResponses fun b hb hmem => ?_
      rw [ExtTreeMap.mem_iff_isSome_getElem?] at hmem ⊢
      rw [getElem?_eraseAll, if_neg fun hblocks => absurd (hlawful b hblocks) (by omega)]
      exact hmem
  | saveBatch =>
      simp only [Write.Fits, Write.params] at hfits
      rw [Write.apply, Db.saveBatch, Db.execute_of_fits hfits]
      exact h.saveBatch hlawful hfits
  | moveToDispatched | moveToDispatchedExternal =>
      obtain ⟨j, hj, hplace⟩ := hlawful
      simp only [Write.Fits, Write.params] at hfits
      simp only [Write.apply, Db.moveToDispatched, Db.moveToDispatchedExternal,
        Db.execute_of_fits hfits]
      refine h.dispatch ⟨_, _, _, _, _, _, _⟩ hj hplace fun m hm => hfits m ?_
      simp only [List.mem_cons] at hm ⊢
      tauto
  | undispatchBatch =>
      obtain ⟨j, hj, hplace⟩ := hlawful
      simp only [Write.Fits, Write.params] at hfits
      rw [Write.apply, Db.undispatchBatch, Db.execute_of_fits hfits]
      exact h.undispatch hj hplace hfits
  | finalizeDispatchedBatch =>
      obtain ⟨j, hj, hplace⟩ := hlawful
      simp only [Write.Fits, Write.params] at hfits
      rw [Write.apply, Db.finalizeDispatchedBatch, Db.execute_of_fits hfits]
      exact h.finalize hj hplace
  | updateBlobsAccepted i =>
      simp only [Write.Fits, Write.params] at hfits
      rw [Write.apply, Db.updateBlobsAccepted, Db.execute_of_fits hfits]
      refine { h with
        pending := All.modify h.pending i fun _ _ hrow => hrow
        pending_fit := h.pending_fit.modify i fun _ _ hrow => hrow
        known := fun j hj => ?_ }
      rw [ExtTreeMap.mem_modify]
      exact h.known j hj
  | updateRbfState i | updateDispatchedL1Block i =>
      simp only [Write.Fits, Write.params] at hfits
      simp only [Write.apply, Db.updateRbfState, Db.updateDispatchedL1Block,
        Db.execute_of_fits hfits]
      refine { h with
        dispatched := All.modify h.dispatched i fun _ _ hrow => hrow
        dispatched_fit := h.dispatched_fit.modify i fun _ _ hrow => hrow
        known := fun j hj => ?_ }
      rw [ExtTreeMap.mem_modify]
      exact h.known j hj
  | saveBatchSignature | deleteBatchSignature | savePendingBlobsAccepted
  | deletePendingBlobsAccepted =>
      simp only [Write.Fits, Write.params] at hfits
      simp only [Write.apply, Db.saveBatchSignature, Db.deleteBatchSignature,
        Db.savePendingBlobsAccepted, Db.deletePendingBlobsAccepted, Db.execute_of_fits hfits]
      exact h.congr rfl rfl rfl rfl h.unanchored

end Accounts

section Actions

variable {layout : Layout} {n : Nat} {acc : BatchAccumulator}

/-- The batches in memory are among the first `n`. -/
structure Placed (layout : Layout) (n : Nat) (acc : BatchAccumulator) : Prop where
  batches : layout.Holds n PendingBatch.range acc.batches
  dispatched : layout.Holds n DispatchedBatch.range acc.dispatched

/-- The operation registers nothing, and it removes responses of registered batches
only. -/
def Operation.Keeps (layout : Layout) (n : Nat) : Operation → Prop
  | setBatch _ _ _ => False
  | purgeResponses blocks => ∀ b ∈ blocks, b ≤ layout.bound n
  | _ => True

/-- A write of the `meta` table that the main loop makes and that is no checkpoint. -/
def Write.Notes : Write → Prop
  | saveL1Checkpoint _ | saveLastBatchEnd _ => True
  | _ => False

def Action.Keeps (layout : Layout) (n : Nat) : Action → Prop
  | operation op => op.Keeps layout n
  | cacheSignature _ _ => True
  | persist write => write.Notes

/-- What the accumulator and the writes of some actions keep. -/
structure Kept (layout : Layout) (n : Nat) (acc : BatchAccumulator) (update : Update) : Prop where
  placed : Placed layout n update.1
  lawful : ∀ write ∈ update.2, ∀ db, write.Lawful layout n db
  responses : ∀ b, layout.bound n < b → b ∈ acc.responses → b ∈ update.1.responses

theorem mem_eraseAll {responses : ExtTreeMap Nat Nitro.EthExecutionResponse}
    {keys : List Nat} (hkeys : ∀ b ∈ keys, b ≤ layout.bound n) {b : Nat}
    (hb : layout.bound n < b) (hmem : b ∈ responses) : b ∈ eraseAll responses keys := by
  rw [ExtTreeMap.mem_iff_isSome_getElem?] at hmem ⊢
  rw [getElem?_eraseAll, if_neg fun hkey => absurd (hkeys b hkey) (by omega)]
  exact hmem

theorem lawful_singleton {write : Write} (h : ∀ db, write.Lawful layout n db) :
    ∀ w ∈ [write], ∀ db, w.Lawful layout n db := by
  simpa using h

theorem Placed.apply {op : Operation} (h : Placed layout n acc) (hop : op.Keeps layout n) :
    Kept layout n acc (op.apply acc) := by
  have hsame : ∀ b, layout.bound n < b → b ∈ acc.responses → b ∈ acc.responses :=
    fun _ _ hmem => hmem
  cases op with
  | setBatch => exact hop.elim
  | insertResponse =>
      exact ⟨⟨h.1, h.2⟩, lawful_singleton fun _ => trivial,
        fun b _ hmem => ExtTreeMap.mem_insert.mpr (.inr hmem)⟩
  | purgeResponses blocks =>
      exact ⟨⟨h.1, h.2⟩, lawful_singleton fun _ => hop, fun b hb => mem_eraseAll hop hb⟩
  | signed | deleteBatchSignature =>
      exact ⟨⟨h.1, h.2⟩, lawful_singleton fun _ => trivial, hsame⟩
  | markBatchSubmitted =>
      simp only [Operation.apply, BatchAccumulator.markBatchSubmitted]
      split
      · exact ⟨⟨All.modify h.1 _ fun _ _ hrow => hrow, h.2⟩,
        lawful_singleton fun _ => trivial, hsame⟩
      · exact ⟨⟨h.1, h.2⟩, lawful_singleton fun _ => trivial, hsame⟩
  | recordRbfBump | recordDispatchedL1Block =>
      exact ⟨⟨h.1, All.modify h.2 _ fun _ _ hrow => hrow⟩, lawful_singleton fun _ => trivial, hsame⟩
  | markDispatched i | markDispatchedExternal i =>
      simp only [Operation.apply, BatchAccumulator.markDispatched,
        BatchAccumulator.markDispatchedExternal]
      split
      · exact ⟨h, by simp, hsame⟩
      · next batch hbatch =>
          have hplace := h.1 i batch hbatch
          exact ⟨⟨All.erase h.1 i, All.insert h.2 hplace⟩, lawful_singleton fun _ => hplace, hsame⟩
  | finalizeDispatched i =>
      simp only [Operation.apply, BatchAccumulator.finalizeDispatched]
      split
      · exact ⟨h, by simp, hsame⟩
      · next row hrow =>
          have hplace := h.2 i row hrow
          refine ⟨⟨h.1, All.erase h.2 i⟩, lawful_singleton fun _ => hplace, fun b hb => ?_⟩
          obtain ⟨j, hj, _, _, hlast⟩ := hplace
          refine mem_eraseAll (fun c hc => ?_) hb
          calc c ≤ row.toBlock := (mem_blocks.mp hc).2
            _ = layout.bound (j + 1) := hlast
            _ ≤ layout.bound n := layout.bound_le hj
  | undispatch i =>
      simp only [Operation.apply, BatchAccumulator.undispatch]
      split
      · exact ⟨h, by simp, hsame⟩
      · next row hrow =>
          have hplace := h.2 i row hrow
          split
          · exact ⟨h, by simp, hsame⟩
          · exact ⟨⟨All.insert h.1 hplace, All.erase h.2 i⟩,
            lawful_singleton fun _ => hplace, hsame⟩

theorem Placed.run {actions : List Action} (h : Placed layout n acc)
    (hactions : ∀ action ∈ actions, action.Keeps layout n) :
    Kept layout n acc (Action.run acc actions) := by
  induction actions generalizing acc with
  | nil => exact ⟨h, by simp [Action.run], fun _ _ hmem => hmem⟩
  | cons action actions ih =>
      have hfirst : Kept layout n acc (action.apply acc) := by
        have haction := hactions action (.head _)
        cases action with
        | operation op => exact h.apply haction
        | cacheSignature => exact ⟨⟨h.1, h.2⟩, by simp [Action.apply], fun _ _ hmem => hmem⟩
        | persist write =>
            refine ⟨h, lawful_singleton fun _ => ?_, fun _ _ hmem => hmem⟩
            cases write with
            | saveL1Checkpoint | saveLastBatchEnd => trivial
            | _ => exact haction.elim
      have hrest := ih hfirst.placed fun a ha => hactions a (.tail _ ha)
      refine ⟨hrest.placed, ?_, fun b hb hmem => hrest.responses b hb (hfirst.responses b hb hmem)⟩
      intro write hwrite
      obtain hwrite | hwrite := List.mem_append.mp hwrite
      · exact hfirst.lawful write hwrite
      · exact hrest.lawful write hwrite

/-- If their writes succeed, actions keep the database in step. -/
theorem Mirrors.run {actions : List Action} {db : Db} (h : Mirrors acc db)
    (hfits : ∀ write ∈ (Action.run acc actions).2, write.Fits)
    (hactions : ∀ write, .persist write ∈ actions →
      write.Notes ∨ ∃ k, write = .saveCheckpoint k) :
    Mirrors (Action.run acc actions).1 (db.applyAll (Action.run acc actions).2) := by
  induction actions generalizing acc db with
  | nil => exact h
  | cons action actions ih =>
      have hfirst : Mirrors (action.apply acc).1 (db.applyAll (action.apply acc).2) := by
        cases action with
        | operation op =>
            exact h.apply_of_writes fun write hwrite => hfits write (List.mem_append_left _ hwrite)
        | cacheSignature => exact h.cacheSignatures _
        | persist write =>
            obtain hnotes | ⟨k, rfl⟩ := hactions write (.head _)
            · cases write with
              | saveL1Checkpoint | saveLastBatchEnd => exact h.of_tables rfl
              | _ => exact hnotes.elim
            · exact h.of_tables rfl
      rw [Action.run, Db.applyAll_append]
      exact ih hfirst (fun write hwrite => hfits write (List.mem_append_right _ hwrite))
        fun write hwrite => hactions write (.tail _ hwrite)

end Actions

end FluentStf.Orchestrator
