import FluentStf.Orchestrator.Ledger
import FluentStf.Orchestrator.Startup

/-! The process and its database, one write at a time. The process may end between any two
writes, also during the startup that follows. -/
namespace FluentStf.Orchestrator

open Process Std

open Nitro (SubmitBatchResponse)

section Unsigned

/-- The database without its signatures. -/
def Db.unsigned (db : Db) : Db := { db with batchSignatures := ∅ }

theorem Db.unsigned_execute {params : List Nat} {statement : Db → Db} (db : Db)
    (h : (statement db).unsigned = (statement db.unsigned).unsigned) :
    (execute params statement db).unsigned = (execute params statement db.unsigned).unsigned := by
  unfold execute
  split
  · exact h
  · rfl

/-- What a write does to the other tables does not depend on the signatures. -/
theorem Write.unsigned_apply (write : Write) (db : Db) :
    (write.apply db).unsigned = (write.apply db.unsigned).unsigned := by
  cases write with
  | saveCheckpoint | saveL1Checkpoint | clearStartBatchId | wipeForRevert | saveLastBatchEnd => rfl
  | deleteResponsesBatch blocks =>
      have hfold : ∀ db db' : Db, db.unsigned = db'.unsigned →
          (db.deleteResponsesBatch blocks).unsigned =
            (db'.deleteResponsesBatch blocks).unsigned := by
        induction blocks with
        | nil => exact fun _ _ h => h
        | cons block blocks ih =>
            intro db db' h
            refine ih _ _ ?_
            rw [Db.unsigned_execute db rfl, Db.unsigned_execute db' rfl, h]
      exact hfold db db.unsigned rfl
  | _ => exact Db.unsigned_execute db rfl

variable {db db' : Db}

theorem Write.unsigned_congr (write : Write) (h : db.unsigned = db'.unsigned) :
    (write.apply db).unsigned = (write.apply db').unsigned := by
  rw [write.unsigned_apply db, write.unsigned_apply db', h]

theorem Db.unsigned_applyAll {writes : List Write} (h : db.unsigned = db'.unsigned) :
    (db.applyAll writes).unsigned = (db'.applyAll writes).unsigned := by
  induction writes generalizing db db' with
  | nil => exact h
  | cons write writes ih => exact ih (write.unsigned_congr h)

theorem Mirrors.unsigned {acc : BatchAccumulator} (hmirrors : Mirrors acc db)
    (h : db.unsigned = db'.unsigned) : Mirrors acc db' :=
  hmirrors.of_tables (congrArg Db.tables h).symm

end Unsigned

section Lawful

variable {layout : Layout} {n m : Nat} {db db' : Db} {write : Write} {writes : List Write}

/-- The writes succeed and each of them is lawful when its turn comes. -/
def LawfulAll (layout : Layout) (n : Nat) : Db → List Write → Prop
  | _, [] => True
  | db, write :: writes =>
      write.Fits ∧ write.Lawful layout n db ∧ LawfulAll layout n (write.apply db) writes

theorem Write.Lawful.congr (h : write.Lawful layout n db)
    (hresponses : db'.blockResponses = db.blockResponses) : write.Lawful layout n db' := by
  cases write with
  | saveCheckpoint k => exact ⟨h.1, fun b hb hle => hresponses ▸ h.2 b hb hle⟩
  | _ => exact h

theorem Write.Lawful.mono (h : write.Lawful layout n db) (hnm : n ≤ m) :
    write.Lawful layout m db := by
  have hbound := layout.bound_mono hnm
  cases write with
  | saveCheckpoint k => exact ⟨h.1, fun b hb hle => h.2 b (hbound.trans_lt hb) hle⟩
  | deleteResponsesBatch => exact fun b hb => (h b hb).trans hbound
  | saveBatch =>
      obtain ⟨j, hj, hplace⟩ := h
      exact ⟨j, hj.trans hnm, hplace⟩
  | moveToDispatched | moveToDispatchedExternal | finalizeDispatchedBatch | undispatchBatch =>
      obtain ⟨j, hj, hplace⟩ := h
      exact ⟨j, hj.trans_le hnm, hplace⟩
  | _ => exact h

theorem LawfulAll.mono (h : LawfulAll layout n db writes) (hnm : n ≤ m) :
    LawfulAll layout m db writes := by
  induction writes generalizing db with
  | nil => trivial
  | cons write writes ih => exact ⟨h.1, h.2.1.mono hnm, ih h.2.2⟩

theorem LawfulAll.unsigned (h : LawfulAll layout n db writes) (hdb : db.unsigned = db'.unsigned) :
    LawfulAll layout n db' writes := by
  induction writes generalizing db db' with
  | nil => trivial
  | cons write writes ih =>
      exact ⟨h.1, h.2.1.congr (congrArg Db.blockResponses hdb).symm,
        ih h.2.2 (write.unsigned_congr hdb)⟩

theorem LawfulAll.of_forall (hfits : ∀ write ∈ writes, write.Fits)
    (hlawful : ∀ write ∈ writes, ∀ db, write.Lawful layout n db) :
    LawfulAll layout n db writes := by
  induction writes generalizing db with
  | nil => trivial
  | cons write writes ih =>
      exact ⟨hfits write (.head _), hlawful write (.head _) db,
        ih (fun w hw => hfits w (.tail _ hw))
          fun w hw => hlawful w (.tail _ hw)⟩

/-- The checkpoint does not return to 0, unless the batches start there. -/
theorem Write.Lawful.getCheckpoint_eq_zero (h : write.Lawful layout n db)
    (hzero : (write.apply db).getCheckpoint = 0) : db.getCheckpoint = 0 ∨ layout.bound 0 = 0 := by
  cases write with
  | saveCheckpoint k => exact .inr (Nat.le_zero.mp (h.1.trans hzero.le))
  | wipeForRevert => exact h.elim
  | saveL1Checkpoint | saveLastBatchEnd | clearStartBatchId => exact .inl hzero
  | deleteResponsesBatch blocks =>
      refine .inl (Eq.trans ?_ hzero)
      exact (Db.deleteResponsesBatch_keeps Db.getCheckpoint blocks db fun _ _ => rfl).symm
  | _ => exact .inl ((Db.execute_keeps Db.getCheckpoint rfl).symm.trans hzero)

theorem Write.le_registered (write : Write) : n ≤ write.registered layout n := by
  cases write with
  | saveBatch =>
      simp only [registered]
      split <;> omega
  | _ => exact le_rfl

theorem Write.subset_finalized (write : Write) {finalized : List (Nat × Nat × Nat)} :
    finalized ⊆ write.finalized finalized := by
  cases write with
  | finalizeDispatchedBatch => exact List.subset_cons_self _ _
  | _ => exact List.Subset.refl _

end Lawful

/-- What a process is doing. Writes that it has not made yet stand in order. -/
inductive Stage where
  | down
  | normalising (todo : List Write)
  | running (state : OrchestratorState) (todo : List Write)

def Stage.todo : Stage → List Write
  | down => []
  | normalising todo | running _ todo => todo

/-- The database through the life of several processes. The batches that were registered
and finalized so far are noted beside it. -/
structure Machine where
  db : Db
  stage : Stage
  registered : Nat
  finalized : List (Nat × Nat × Nat)

/-- What can happen to the machine: the steps of the process, and its end at any time. -/
inductive MachineEvent where
  /-- A process starts, up to the end of the normalisation. -/
  | launch
  /-- The orchestrator runs, after its first finalization check. -/
  | boot (done : FinalizationDone)
  | handle (now : Nat) (message : Message)
  /-- The next write of the process. -/
  | write
  /-- The signing task stores a signature. -/
  | sign (batchIndex : Nat) (resp : SubmitBatchResponse)
  | crash

namespace Machine

variable (layout : Layout) (config : Config)

def perform (m : Machine) (write : Write) : Machine :=
  { m with
    db := write.apply m.db
    registered := write.registered layout m.registered
    finalized := write.finalized m.finalized }

/-- One step, if it is possible. A message is taken only when all writes of the last are made. -/
def step (m : Machine) : MachineEvent → Option Machine
  | .launch => match m.stage with
    | .down => some { m with stage := .normalising (m.db.startupWrites config) }
    | _ => none
  | .boot done => match m.stage with
    | .normalising [] =>
        let state := (start m.db done).state
        some { m with stage := .running state state.writes }
    | _ => none
  | .handle now message => match m.stage with
    | .running state [] =>
        if state.shutdown then none
        else
          let state := (turn ⟨state, m.db⟩ now message).state
          some { m with stage := .running state state.writes }
    | _ => none
  | .write => match m.stage with
    | .normalising (write :: todo) =>
        some { m.perform layout write with stage := .normalising todo }
    | .running state (write :: todo) =>
        some { m.perform layout write with stage := .running state todo }
    | _ => none
  | .sign batchIndex resp => match m.stage with
    | .running _ _ => some (m.perform layout (.saveBatchSignature batchIndex resp))
    | _ => none
  | .crash => some { m with stage := .down }

/-- Batches are registered in order, possibly again after a crash, and none is reverted. Only
blocks of a registered batch are reported as invalid. -/
def Admits (m : Machine) : MachineEvent → Prop
  | .handle _ (.l1Event (.batchCommitted i first last)) =>
      ∃ j ≤ m.registered, layout.Places j i first last
  | .handle _ (.l1Event (.batchReverted _ _)) => False
  | .handle _ (.signDone i (.invalidSignatures blocks _)) =>
      ∃ j < m.registered, i = layout.index j ∧
        ∀ b ∈ blocks, layout.bound j < b ∧ b ≤ layout.bound (j + 1)
  | .sign batchIndex _ => batchIndex < 2 ^ 63
  | _ => True

/-- Every write succeeds. -/
def Step (m : Machine) (event : MachineEvent) (t : Machine) : Prop :=
  m.Admits layout event ∧ m.step layout config event = some t ∧ ∀ write ∈ t.stage.todo, write.Fits

/-- The response to an execution task is about the block of the task. The handler of a result
does not compare the two numbers. -/
def Answers : MachineEvent → Prop
  | .handle _ (.blockResult result) => result.response.blockNumber.toNat = result.blockNumber
  | _ => True

def AnsweredStep (m : Machine) (event : MachineEvent) (t : Machine) : Prop :=
  m.Step layout config event t ∧ Answers event

end Machine

section Startup

variable {layout : Layout} {config : Config} {n : Nat} {finalized : List (Nat × Nat × Nat)}
  {db : Db} {writes : List Write}

/-- The block needs no execution: its response is stored, or it lies in a pending batch
whose signature is stored, in a dispatched batch or in a finalized one. -/
def Db.Covers (db : Db) (finalized : List (Nat × Nat × Nat)) (b : Nat) : Prop :=
  b ∈ db.blockResponses ∨
    (∃ i batch, db.pendingBatches[i]? = some batch ∧ i ∈ db.batchSignatures ∧
      batch.fromBlock ≤ b ∧ b ≤ batch.toBlock) ∨
    (∃ (i : Nat) (row : DispatchedBatch), db.dispatchedBatches[i]? = some row ∧
      row.fromBlock ≤ b ∧ b ≤ row.toBlock) ∨
    ∃ batch ∈ finalized, batch.2.1 ≤ b ∧ b ≤ batch.2.2

/-- A pending batch without a signature waits for the response of the block. -/
def Db.Needs (db : Db) (b : Nat) : Prop :=
  ∃ i batch, db.pendingBatches[i]? = some batch ∧ i ∉ db.batchSignatures ∧
    batch.fromBlock ≤ b ∧ b ≤ batch.toBlock ∧ b ∉ db.blockResponses

/-- Blocks up to the checkpoint are covered, and blocks that are needed are above it. -/
structure Settled (layout : Layout) (finalized : List (Nat × Nat × Nat)) (db : Db) : Prop where
  covers : ∀ b, layout.bound 0 < b → b ≤ db.getCheckpoint → db.Covers finalized b
  needs : ∀ b, db.Needs b → db.getCheckpoint < b
  floor : layout.bound 0 ≤ db.getCheckpoint

/-- The writes of the startup. -/
def Write.AtStartup : Write → Prop
  | saveCheckpoint _ | saveL1Checkpoint _ | saveLastBatchEnd _ | clearStartBatchId
  | deleteBatchSignature _ => True
  | _ => False

theorem LawfulAll.append {first second : List Write} (h : LawfulAll layout n db first)
    (h' : LawfulAll layout n (db.applyAll first) second) :
    LawfulAll layout n db (first ++ second) := by
  induction first generalizing db with
  | nil => exact h'
  | cons write first ih => exact ⟨h.1, h.2.1, ih h.2.2 h'⟩

theorem Accounts.startup (h : Accounts layout n finalized db)
    (hwrites : ∀ write ∈ writes, write.AtStartup ∧ write.Lawful layout n db)
    (hfits : ∀ write ∈ writes, write.Fits) :
    LawfulAll layout n db writes ∧ Accounts layout n finalized (db.applyAll writes) := by
  induction writes generalizing db with
  | nil => exact ⟨trivial, h⟩
  | cons write writes ih =>
      obtain ⟨hstartup, hlawful⟩ := hwrites write (.head _)
      have hfit := hfits write (.head _)
      have hnext : Accounts layout n finalized (write.apply db) ∧
          (write.apply db).blockResponses = db.blockResponses := by
        have haccounts := h.write hfit hlawful
        cases write with
        | saveCheckpoint | saveL1Checkpoint | saveLastBatchEnd | clearStartBatchId =>
            exact ⟨haccounts, rfl⟩
        | deleteBatchSignature i =>
            exact ⟨haccounts, Db.execute_keeps Db.blockResponses rfl⟩
        | _ => exact hstartup.elim
      obtain ⟨hrest, haccounts⟩ := ih hnext.1 (fun w hw => by
        obtain ⟨hw, hlawful⟩ := hwrites w (.tail _ hw)
        exact ⟨hw, hlawful.congr hnext.2⟩) fun w hw => hfits w (.tail _ hw)
      exact ⟨⟨hfit, hlawful, hrest⟩, haccounts⟩

/-- The start checkpoint may be resolved again as long as the checkpoint is 0. -/
theorem Accounts.resolve (h : Accounts layout n finalized db) (hstart : db.getCheckpoint = 0 →
      config.startCheckpoint config.envStartBatchId = layout.bound 0) :
    ∀ write ∈ db.resolveWrites config, write.AtStartup ∧ write.Lawful layout n db := by
  intro write hwrite
  simp only [Db.resolveWrites, h.unanchored, Option.none_or] at hwrite
  split at hwrite
  · cases hwrite
  · next id hid =>
      split at hwrite
      · cases hwrite
      · next hzero =>
        have hfirst : (Write.saveCheckpoint ((config.resolve id).1 - 1)).Lawful layout n db := by
          have hbound : (config.resolve id).1 - 1 = layout.bound 0 := by
            rw [← hstart (not_not.mp hzero), hid]
            rfl
          rw [hbound]
          refine ⟨le_rfl, fun b hb hle => ?_⟩
          exact absurd (hb.trans_le hle) (layout.bound_mono (Nat.zero_le n)).not_gt
        simp only [Option.isNone_none, Option.isSome_none, Bool.false_eq_true, if_true, if_false,
          List.append_nil, List.mem_append, List.mem_singleton] at hwrite
        obtain (rfl | rfl) | hwrite := hwrite
        · exact ⟨trivial, hfirst⟩
        · exact ⟨trivial, trivial⟩
        · split at hwrite
          · cases List.mem_singleton.mp hwrite
            exact ⟨trivial, trivial⟩
          · cases hwrite

theorem Accounts.ascending (h : Accounts layout n finalized db) :
    Ascending db.pendingBatches.toList := by
  have hplace : ∀ row ∈ db.pendingBatches.toList, ∃ j < n,
      layout.Places j row.1 row.2.fromBlock row.2.toBlock := fun row hrow =>
    h.pending row.1 row.2 (ExtTreeMap.mem_toList_iff_getElem?_eq_some.mp hrow)
  refine ⟨?_, fun row hrow => ?_⟩
  · refine ExtTreeMap.ordered_keys_toList.imp_of_mem fun {a b} ha hb hlt => ?_
    have hlt : a.1 < b.1 := Nat.compare_eq_lt.mp hlt
    obtain ⟨j, _, hja, _, hto⟩ := hplace a ha
    obtain ⟨k, _, hkb, hfrom, _⟩ := hplace b hb
    have hjk : j < k := by
      rw [← layout.index_strictMono.lt_iff_lt, ← hja, ← hkb]
      exact hlt
    have := layout.bound_le hjk
    omega
  · obtain ⟨j, _, _, hfrom, _⟩ := hplace row hrow
    omega

/-- The checkpoint of the walk skips no block above the registered batches. -/
theorem Accounts.newCkpt (h : Accounts layout n finalized db)
    (hfloor : layout.bound 0 ≤ db.getCheckpoint) :
    (Write.saveCheckpoint db.normalized.newCkpt).Lawful layout n db := by
  have hnew : db.normalized.newCkpt = db.getCheckpoint ∨
      ∃ row ∈ db.pendingBatches.toList, row.2.Bounds db.normalized.newCkpt := newCkpt_bounds
  obtain heq | ⟨row, hrow, hmin, hto⟩ := hnew
  · rw [heq]
    exact ⟨hfloor, h.executed⟩
  · obtain ⟨j, hj, _, hfirst, hlast⟩ :=
      h.pending row.1 row.2 (ExtTreeMap.mem_toList_iff_getElem?_eq_some.mp hrow)
    have hfirst : row.2.fromBlock = layout.bound j + 1 := hfirst
    have hlast : row.2.toBlock = layout.bound (j + 1) := hlast
    have hstart : layout.bound 0 ≤ layout.bound j := layout.bound_mono (Nat.zero_le j)
    have hnext : layout.bound j ≤ layout.bound (j + 1) := layout.bound_mono (Nat.le_succ j)
    have hregistered := layout.bound_le hj
    exact ⟨by omega, fun b hb hle => absurd hb (by omega)⟩

theorem Accounts.normalize (h : Accounts layout n finalized db)
    (hfloor : layout.bound 0 ≤ db.getCheckpoint) :
    ∀ write ∈ db.normalizeWrites, write.AtStartup ∧ write.Lawful layout n db := by
  intro write hwrite
  obtain hwrite | hwrite := List.mem_append.mp hwrite
  · split at hwrite
    · obtain ⟨i, _, rfl⟩ := List.mem_map.mp hwrite
      exact ⟨trivial, trivial⟩
    · cases hwrite
  · split at hwrite
    · cases List.mem_singleton.mp hwrite
      exact ⟨trivial, h.newCkpt hfloor⟩
    · cases hwrite

theorem Db.applyAll_deleteBatchSignature {indexes : List Nat}
    (hfits : ∀ i ∈ indexes, (Write.deleteBatchSignature i).Fits) :
    db.applyAll (indexes.map .deleteBatchSignature) =
      { db with batchSignatures := eraseAll db.batchSignatures indexes } := by
  induction indexes generalizing db with
  | nil => rfl
  | cons i indexes ih =>
      have hi : ∀ m ∈ [i], m < 2 ^ 63 := hfits i (.head _)
      rw [List.map_cons, applyAll_cons, Write.apply, deleteBatchSignature, execute_of_fits hi,
        ih fun j hj => hfits j (.tail _ hj)]
      rfl

/-- What the normalisation leaves. -/
theorem Db.applyAll_normalizeWrites (hfits : ∀ write ∈ db.normalizeWrites, write.Fits) :
    db.applyAll db.normalizeWrites = { db with
      batchSignatures := eraseAll db.batchSignatures db.normalized.staleSignatureIndexes
      checkpoint := if db.normalized.newCkpt = db.getCheckpoint then db.checkpoint
        else some db.normalized.newCkpt } := by
  have hstale : db.normalizeWrites =
      db.normalized.staleSignatureIndexes.map .deleteBatchSignature ++
        (if db.normalized.newCkpt ≠ db.getCheckpoint then [.saveCheckpoint db.normalized.newCkpt]
          else []) := by
    rw [normalizeWrites]
    cases hgap : db.normalized.earliestGap with
    | some gap => rfl
    | none =>
        have hnone : db.normalized.staleSignatureIndexes = [] := stale_eq_nil hgap
        rw [hnone]
        rfl
  rw [hstale] at hfits ⊢
  rw [applyAll_append, applyAll_deleteBatchSignature fun i hi =>
    hfits _ (List.mem_append_left _ (List.mem_map_of_mem hi))]
  by_cases hnew : db.normalized.newCkpt = db.getCheckpoint <;>
    simp [hnew, Write.apply, saveCheckpoint]

/-- A registered batch that is pending or dispatched has its own row. -/
theorem Layout.Holds.row {α : Type} {range : α → Nat × Nat} {table : ExtTreeMap Nat α} {j : Nat}
    (h : layout.Holds n range table) (hmem : layout.index j ∈ table) :
    ∃ row, table[layout.index j]? = some row ∧ (range row).1 = layout.bound j + 1 ∧
      (range row).2 = layout.bound (j + 1) := by
  rw [ExtTreeMap.mem_iff_isSome_getElem?] at hmem
  obtain ⟨row, hrow⟩ := Option.isSome_iff_exists.mp hmem
  obtain ⟨k, _, hindex, hfrom, hto⟩ := h _ row hrow
  cases layout.index_strictMono.injective hindex
  exact ⟨row, hrow, hfrom, hto⟩

/-- After the normalisation no block is lost. -/
theorem Accounts.settled (h : Accounts layout n finalized db)
    (hfloor : layout.bound 0 ≤ db.getCheckpoint)
    (hfits : ∀ write ∈ db.normalizeWrites, write.Fits) :
    Settled layout finalized (db.applyAll db.normalizeWrites) := by
  have hwalk : ∀ row ∈ db.pendingBatches.toList, ∀ b, row.2.fromBlock ≤ b → b ≤ row.2.toBlock →
      b ≤ db.normalized.newCkpt → db.blockResponses.contains b ∨
        db.batchSignatures.contains row.1 ∧ row.1 ∉ db.normalized.staleSignatureIndexes :=
    normalizeStartupCheckpoint_covers h.ascending
  -- a pending batch either has the response or keeps its signature
  have hpending : ∀ i batch, db.pendingBatches[i]? = some batch → ∀ b, batch.fromBlock ≤ b →
      b ≤ batch.toBlock → b ≤ db.normalized.newCkpt → b ∈ db.blockResponses ∨
        i ∈ eraseAll db.batchSignatures db.normalized.staleSignatureIndexes := by
    intro i batch hbatch b hfrom hto hle
    refine (hwalk (i, batch) (ExtTreeMap.mem_toList_iff_getElem?_eq_some.mpr hbatch) b hfrom hto
      hle).imp id fun ⟨hsigned, hkept⟩ => ?_
    rw [ExtTreeMap.mem_iff_isSome_getElem?, getElem?_eraseAll, if_neg hkept,
      ← ExtTreeMap.contains_eq_isSome_getElem?]
    exact hsigned
  rw [Db.applyAll_normalizeWrites hfits]
  have hcheckpoint : (if db.normalized.newCkpt = db.getCheckpoint then db.checkpoint
      else some db.normalized.newCkpt).getD 0 = db.normalized.newCkpt := by
    split
    · next heq => exact heq.symm
    · rfl
  refine ⟨?_, ?_, ?_⟩
  · intro b hb hle
    rw [Db.getCheckpoint, hcheckpoint] at hle
    by_cases hregistered : b ≤ layout.bound n
    · obtain ⟨j, hj, hfrom, hto⟩ := layout.exists_bound hb hregistered
      obtain hmem | hmem | hmem := h.known j hj
      · obtain ⟨batch, hbatch, hfirst, hlast⟩ := h.pending.row hmem
        simp only [PendingBatch.range] at hfirst hlast
        obtain hresponse | hsigned := hpending _ batch hbatch b (by omega) (by omega) hle
        · exact .inl hresponse
        · exact .inr (.inl ⟨_, batch, hbatch, hsigned, by omega, by omega⟩)
      · obtain ⟨row, hrow, hfirst, hlast⟩ := h.dispatched.row hmem
        simp only [DispatchedBatch.range] at hfirst hlast
        exact .inr (.inr (.inl ⟨_, row, hrow, by omega, by omega⟩))
      · exact .inr (.inr (.inr ⟨_, hmem, hfrom, hto⟩))
    · exact .inl ((h.newCkpt hfloor).2 b (by omega) hle)
  · rintro b ⟨i, batch, hbatch, hunsigned, hfrom, hto, hmissing⟩
    rw [Db.getCheckpoint, hcheckpoint]
    by_contra hle
    obtain hresponse | hsigned := hpending i batch hbatch b hfrom hto (by omega)
    · exact hmissing hresponse
    · exact hunsigned hsigned
  · rw [Db.getCheckpoint, hcheckpoint]
    exact (h.newCkpt hfloor).1

theorem Settled.mono {finalized' : List (Nat × Nat × Nat)} (h : Settled layout finalized db)
    (hsubset : finalized ⊆ finalized') :
    Settled layout finalized' db := by
  refine ⟨fun b hb hle => ?_, h.needs, h.floor⟩
  refine (h.covers b hb hle).imp_right (Or.imp_right (Or.imp_right ?_))
  rintro ⟨batch, hbatch, hrange⟩
  exact ⟨batch, hsubset hbatch, hrange⟩

end Startup

section Turns

variable {layout : Layout} {n : Nat} {finalized : List (Nat × Nat × Nat)} {db : Db}

/-- Blocks that the watermark has passed or will pass are in memory, unless a registered
batch has them. -/
def Confirmed (layout : Layout) (n : Nat) (state : OrchestratorState) : Prop :=
  ∀ b, layout.bound n < b → b ≤ state.watermark.1 ∨ b ∈ state.watermark.2 →
    b ∈ state.accumulator.responses

variable {state : OrchestratorState}

theorem Confirmed.mono {m : Nat} (h : Confirmed layout n state) (hnm : n ≤ m) :
    Confirmed layout m state :=
  fun b hb => h b ((layout.bound_mono hnm).trans_lt hb)

/-- The writes of a running process are lawful, and when they are made the database is in
step with the memory. -/
structure InStep (layout : Layout) (n : Nat) (db : Db) (state : OrchestratorState)
    (todo : List Write) : Prop where
  lawful : LawfulAll layout n db todo
  mirrors : Mirrors state.accumulator (db.applyAll todo)
  confirmed : Confirmed layout n state
  floor : layout.bound 0 ≤ state.watermark.1

theorem Accounts.placed {acc : BatchAccumulator} (h : Accounts layout n finalized db)
    (hmirrors : Mirrors acc db) : Placed layout n acc :=
  ⟨hmirrors.batches ▸ h.pending, hmirrors.dispatched ▸ h.dispatched⟩

/-- Registration is lawful if it is in order. -/
theorem setBatch_lawful {acc : BatchAccumulator} {i first last : Nat}
    (h : ∃ j ≤ n, layout.Places j i first last) :
    ∀ write ∈ (acc.setBatch i first last).2, ∀ db, write.Lawful layout n db := by
  simp only [BatchAccumulator.setBatch]
  split
  · simp
  · intro write hwrite db
    obtain hwrite | hwrite := List.mem_append.mp hwrite
    · split at hwrite
      · cases List.mem_singleton.mp hwrite
        trivial
      · cases hwrite
    · cases List.mem_singleton.mp hwrite
      exact h

/-- The actions of other messages than a registration and a result. -/
theorem actions_keep {m : Machine} {now : Nat} {message : Message}
    (hplaced : Placed layout m.registered state.accumulator)
    (hadmits : m.Admits layout (.handle now message))
    (hcommitted : ∀ i first last, message ≠ .l1Event (.batchCommitted i first last))
    (hresult : ∀ result, message ≠ .blockResult result) :
    ∀ action ∈ state.actions message, action.Keeps layout m.registered := by
  intro action haction
  cases OrchestratorState.causes_of_mem haction with
  | response result | checkpoint result => exact absurd rfl (hresult result)
  | committed i first last => exact absurd rfl (hcommitted i first last)
  | wiped => exact hadmits.elim
  | @purge i batch resp hbatch =>
      obtain ⟨j, hj, _, _, hlast⟩ := hplaced.batches i batch hbatch
      intro b hb
      calc b ≤ batch.toBlock := (mem_blocks.mp hb).2
        _ = layout.bound (j + 1) := hlast
        _ ≤ layout.bound m.registered := layout.bound_le hj
  | invalid i blocks addr =>
      obtain ⟨j, hj, _, hblocks⟩ := hadmits
      exact fun b hb => (hblocks b hb).2.trans (layout.bound_le hj)
  | _ => trivial

/-- A new result: its response is stored before the watermark. -/
theorem InStep.accept {m : Machine} {now : Nat} {result : BlockResult}
    (h : InStep layout m.registered m.db state [])
    (hblock : result.response.blockNumber.toNat = result.blockNumber)
    (hdrops : ¬state.drops result)
    (hfits : ∀ write ∈ (turn ⟨state, m.db⟩ now (.blockResult result)).state.writes,
      write.Fits) :
    InStep layout m.registered m.db (turn ⟨state, m.db⟩ now (.blockResult result)).state
      (turn ⟨state, m.db⟩ now (.blockResult result)).state.writes := by
  have hacc := turn_accumulator ⟨state, m.db⟩ now (.blockResult result)
  have hwatermark := turn_watermark ⟨state, m.db⟩ now (.blockResult result)
  rw [turn_writes] at hfits ⊢
  simp only [OrchestratorState.actions, hdrops, Bool.false_eq_true,
    if_false] at hfits hacc hwatermark ⊢
  have hmirrors := Mirrors.run h.mirrors hfits (by simp)
  have hstored : Mirrors (state.accumulator.insertResponse result.response).1
      (m.db.applyAll [.saveResponse result.response]) :=
    Mirrors.insertResponse h.mirrors (hfits (.saveResponse result.response) (.head _))
  have hconfirmed : ∀ b, layout.bound m.registered < b →
      b ≤ (state.advanced result).1 ∨ b ∈ (state.advanced result).2 →
      b ∈ (state.accumulator.insertResponse result.response).1.responses := by
    intro b hb hpassed
    refine ExtTreeMap.mem_insert.mpr ?_
    obtain hle | hmem := OrchestratorState.advance_covers hpassed
    · exact .inr (h.confirmed b hb (.inl hle))
    · obtain heq | hmem := ExtTreeSet.mem_insert.mp hmem
      · exact .inl (hblock ▸ heq)
      · exact .inr (h.confirmed b hb (.inr hmem))
  have hfloor : layout.bound 0 ≤ (state.advanced result).1 :=
    h.floor.trans OrchestratorState.le_advance
  refine ⟨⟨hfits _ (.head _), trivial, hfits _ (.tail _
    (.head _)), ⟨hfloor, fun b hb hle => ?_⟩, trivial⟩, hacc ▸ hmirrors, ?_, ?_⟩
  · have hmem := hconfirmed b hb (.inl hle)
    rwa [← hstored.responses] at hmem
  · rw [Confirmed, hwatermark, hacc]
    exact hconfirmed
  · rw [hwatermark]
    exact hfloor

theorem InStep.handle {m : Machine} {now : Nat} {message : Message}
    (h : InStep layout m.registered m.db state [])
    (haccounts : Accounts layout m.registered m.finalized m.db)
    (hadmits : m.Admits layout (.handle now message))
    (hanswers : Machine.Answers (.handle now message))
    (hfits : ∀ write ∈ (turn ⟨state, m.db⟩ now message).state.writes, write.Fits) :
    InStep layout m.registered m.db (turn ⟨state, m.db⟩ now message).state
      (turn ⟨state, m.db⟩ now message).state.writes := by
  by_cases hresult : ∃ result, message = .blockResult result ∧ ¬state.drops result
  · obtain ⟨result, rfl, hdrops⟩ := hresult
    exact h.accept hanswers hdrops hfits
  have hacc := turn_accumulator ⟨state, m.db⟩ now message
  rw [turn_writes] at hfits ⊢
  have hwatermark : (turn ⟨state, m.db⟩ now message).state.watermark = state.watermark := by
    rw [turn_watermark]
    cases message with
    | blockResult result => exact if_pos (by_contra fun hdrops => hresult ⟨result, rfl, hdrops⟩)
    | _ => rfl
  have hmirrors : Mirrors (Action.run state.accumulator (state.actions message)).1
      (m.db.applyAll (Action.run state.accumulator (state.actions message)).2) := by
    refine Mirrors.run h.mirrors hfits fun write hwrite => ?_
    cases OrchestratorState.causes_of_mem hwrite with
    | lastBatchEnd | polled => exact .inl trivial
    | checkpoint result k => exact .inr ⟨k, rfl⟩
    | wiped => exact hadmits.elim
  have hplaced := haccounts.placed h.mirrors
  -- what remains to be shown of the actions
  have hkept : (∀ write ∈ (Action.run state.accumulator (state.actions message)).2, ∀ db,
        write.Lawful layout m.registered db) ∧
      ∀ b, layout.bound m.registered < b → b ∈ state.accumulator.responses →
        b ∈ (Action.run state.accumulator (state.actions message)).1.responses := by
    by_cases hcommitted : ∃ i first last, message = .l1Event (.batchCommitted i first last)
    · obtain ⟨i, first, last, rfl⟩ := hcommitted
      simp only [OrchestratorState.actions, Action.run, Action.apply, Operation.apply,
        List.append_nil]
      refine ⟨setBatch_lawful hadmits, fun b _ hmem => ?_⟩
      simp only [BatchAccumulator.setBatch]
      split <;> exact hmem
    · by_cases hblock : ∃ result, message = .blockResult result
      · obtain ⟨result, rfl⟩ := hblock
        have hdrops : state.drops result = true :=
          by_contra fun hdrops => hresult ⟨result, rfl, hdrops⟩
        simp [OrchestratorState.actions, hdrops, Action.run]
      · have hkept := hplaced.run (actions_keep hplaced hadmits
          (fun i first last heq => hcommitted ⟨i, first, last, heq⟩)
          (fun result heq => hblock ⟨result, heq⟩))
        exact ⟨hkept.lawful, hkept.responses⟩
  refine ⟨.of_forall hfits hkept.1, hacc ▸ hmirrors, ?_, hwatermark ▸ h.floor⟩
  rw [Confirmed, hwatermark, hacc]
  exact fun b hb hpassed => hkept.2 b hb (h.confirmed b hb hpassed)

/-- A new process starts in step. -/
theorem InStep.start (h : Accounts layout n finalized db)
    (hfloor : layout.bound 0 ≤ db.getCheckpoint) (done : FinalizationDone)
    (hfits : ∀ write ∈ (start db done).state.writes, write.Fits) :
    InStep layout n db (start db done).state (start db done).state.writes := by
  obtain ⟨hacc, hwrites, _⟩ := start_performs db done
  have hloaded : Mirrors (BatchAccumulator.withDb db).1 db :=
    ⟨rfl, rfl, rfl, rfl, h.pending_fit, h.dispatched_fit⟩
  have hplaced := h.placed hloaded
  have hkept : Kept layout n (BatchAccumulator.withDb db).1
      (Action.run (BatchAccumulator.withDb db).1 (startActions db done)) := by
    refine hplaced.run fun action haction => ?_
    cases causes_of_mem_startActions haction <;> trivial
  rw [hwrites] at hfits ⊢
  refine ⟨.of_forall hfits ?_, ?_, ?_, ?_⟩
  · intro write hwrite db'
    obtain hwrite | hwrite := List.mem_append.mp hwrite
    · obtain ⟨i, _, rfl⟩ := List.mem_map.mp hwrite
      trivial
    · exact hkept.lawful write hwrite db'
  · rw [hacc, Db.applyAll_append]
    refine hloaded.restart.run (fun write hwrite => hfits write (List.mem_append_right _ hwrite)) ?_
    intro write hwrite
    cases causes_of_mem_startActions hwrite
    exact .inl trivial
  · rw [Confirmed, start_watermark, hacc]
    rintro b hb (hle | hmem)
    · exact hkept.responses b hb (h.executed b hb hle)
    · exact absurd hmem (by simp)
  · rw [start_watermark]
    exact hfloor

end Turns

namespace Machine

variable {layout : Layout} {config : Config} {m t : Machine}

/-- The invariant through all processes and crashes. -/
structure Sound (layout : Layout) (config : Config) (m : Machine) : Prop where
  accounts : Accounts layout m.registered m.finalized m.db
  /-- The start may be resolved again when the checkpoint is 0. -/
  start : m.db.getCheckpoint = 0 ∨ layout.bound 0 = 0 →
    config.startCheckpoint config.envStartBatchId = layout.bound 0
  stage : match m.stage with
    | .down => True
    | .normalising todo => LawfulAll layout m.registered m.db todo ∧
        Settled layout m.finalized (m.db.applyAll todo)
    | .running state todo => InStep layout m.registered m.db state todo

theorem Sound.startCheckpoint (h : m.Sound layout config) :
    layout.bound 0 ≤ m.db.startCheckpoint config := by
  rw [Db.startCheckpoint]
  split
  · next hpositive => exact h.accounts.floor hpositive
  · next hzero =>
      rw [h.accounts.unanchored, Option.none_or, h.start (.inl (not_not.mp hzero))]

theorem Sound.launch (h : m.Sound layout config)
    (hfits : ∀ write ∈ m.db.startupWrites config, write.Fits) :
    Sound layout config { m with stage := .normalising (m.db.startupWrites config) } := by
  refine ⟨h.accounts, h.start, ?_⟩
  obtain ⟨hresolved, haccounts⟩ := h.accounts.startup
    (h.accounts.resolve fun hzero => h.start (.inl hzero))
    fun write hwrite => hfits write (List.mem_append_left _ hwrite)
  have hfloor : layout.bound 0 ≤ (m.db.applyAll (m.db.resolveWrites config)).getCheckpoint := by
    rw [Db.getCheckpoint_resolveWrites]
    exact h.startCheckpoint
  have hfits' : ∀ write ∈ (m.db.applyAll (m.db.resolveWrites config)).normalizeWrites, write.Fits :=
    fun write hwrite => hfits write (List.mem_append_right _ hwrite)
  obtain ⟨hnormalized, _⟩ := haccounts.startup (haccounts.normalize hfloor) hfits'
  refine ⟨hresolved.append hnormalized, ?_⟩
  rw [Db.startupWrites, Db.applyAll_append]
  exact haccounts.settled hfloor hfits'

/-- A lawful write, in any stage. -/
theorem Sound.perform {write : Write} {stage : Stage} (h : m.Sound layout config)
    (hfits : write.Fits) (hlawful : write.Lawful layout m.registered m.db)
    (hstage : match stage with
      | .down => True
      | .normalising todo => LawfulAll layout m.registered (write.apply m.db) todo ∧
          Settled layout m.finalized ((write.apply m.db).applyAll todo)
      | .running state todo => InStep layout m.registered (write.apply m.db) state todo) :
    Sound layout config { m.perform layout write with stage := stage } := by
  refine ⟨h.accounts.write hfits hlawful, fun hzero => ?_, ?_⟩
  · exact h.start (hzero.elim hlawful.getCheckpoint_eq_zero .inr)
  · cases stage with
    | down => trivial
    | normalising todo =>
        exact ⟨hstage.1.mono write.le_registered, hstage.2.mono write.subset_finalized⟩
    | running state todo =>
        exact ⟨hstage.lawful.mono write.le_registered, hstage.mirrors,
          hstage.confirmed.mono write.le_registered, hstage.floor⟩

theorem Sound.step {event : MachineEvent} (hstep : m.AnsweredStep layout config event t)
    (h : m.Sound layout config) : t.Sound layout config := by
  obtain ⟨⟨hadmits, hstep, hfits⟩, hanswers⟩ := hstep
  have hstage := h.stage
  cases event with
  | launch =>
      simp only [Machine.step] at hstep
      split at hstep
      · cases hstep
        exact h.launch hfits
      · cases hstep
  | boot done =>
      simp only [Machine.step] at hstep
      split at hstep
      · next hnormalised =>
          rw [hnormalised] at hstage
          cases hstep
          exact ⟨h.accounts, h.start, .start h.accounts hstage.2.floor done hfits⟩
      · cases hstep
  | handle now message =>
      simp only [Machine.step] at hstep
      split at hstep
      · next state hrunning =>
          rw [hrunning] at hstage
          split at hstep
          · cases hstep
          · cases hstep
            exact ⟨h.accounts, h.start, hstage.handle h.accounts hadmits hanswers hfits⟩
      · cases hstep
  | write =>
      simp only [Machine.step] at hstep
      split at hstep
      · next write todo hnormalising =>
          rw [hnormalising] at hstage
          cases hstep
          obtain ⟨⟨hfit, hlawful, hrest⟩, hsettled⟩ := hstage
          exact h.perform hfit hlawful ⟨hrest, hsettled⟩
      · next state write todo hrunning =>
          rw [hrunning] at hstage
          cases hstep
          obtain ⟨hfit, hlawful, hrest⟩ := hstage.lawful
          exact h.perform hfit hlawful ⟨hrest, hstage.mirrors, hstage.confirmed, hstage.floor⟩
      · cases hstep
  | sign i resp =>
      simp only [Machine.step] at hstep
      split at hstep
      · next state todo hrunning =>
          rw [hrunning] at hstage
          cases hstep
          have hfit : (Write.saveBatchSignature i resp).Fits := by
            simpa [Write.Fits, Write.params, Admits] using hadmits
          have hunsigned : m.db.unsigned =
              ((Write.saveBatchSignature i resp).apply m.db).unsigned :=
            (Db.execute_keeps Db.unsigned rfl).symm
          have hinstep : InStep layout m.registered ((Write.saveBatchSignature i resp).apply m.db)
              state todo :=
            ⟨hstage.lawful.unsigned hunsigned,
              hstage.mirrors.unsigned (Db.unsigned_applyAll hunsigned), hstage.confirmed,
              hstage.floor⟩
          refine h.perform hfit trivial ?_
          rw [hrunning]
          exact hinstep
      · cases hstep
  | crash =>
      cases hstep
      exact ⟨h.accounts, h.start, trivial⟩

/-- A first process on a database without batches. -/
def initial (db : Db) : Machine := ⟨db, .down, 0, []⟩

theorem initial_sound {db : Db} (hpending : db.pendingBatches = ∅)
    (hdispatched : db.dispatchedBatches = ∅) (hunanchored : db.startBatchId = none)
    (hstart : db.startCheckpoint config = layout.bound 0) :
    (initial db).Sound layout config := by
  rw [Db.startCheckpoint, hunanchored, Option.none_or] at hstart
  have hle : db.getCheckpoint ≤ layout.bound 0 := by
    split at hstart <;> omega
  refine ⟨⟨hpending ▸ All.empty, hpending ▸ All.empty, hdispatched ▸ All.empty,
    hdispatched ▸ All.empty, fun j hj => absurd hj (Nat.not_lt_zero j), fun b hb hb' => ?_,
    fun hpositive => ?_, hunanchored⟩, fun hzero => ?_, trivial⟩
  · exact absurd (hb.trans_le (hb'.trans hle)) (lt_irrefl _)
  · have hpositive : db.getCheckpoint ≠ 0 := hpositive
    rw [if_pos hpositive] at hstart
    exact hstart.ge
  · split at hstart
    · next hpositive => exact absurd (hzero.elim id (hstart ▸ ·)) hpositive
    · exact hstart

end Machine

/-- No block is lost across crashes if every response is about the block that was asked for:
after the normalisation of a startup, every block from the start checkpoint up to the
checkpoint is covered, and every block that a pending batch still needs is fed again. -/
theorem no_block_lost {layout : Layout} {config : Config} {db : Db} {events : List MachineEvent}
    {m : Machine} (hpending : db.pendingBatches = ∅) (hdispatched : db.dispatchedBatches = ∅)
    (hunanchored : db.startBatchId = none) (hstart : db.startCheckpoint config = layout.bound 0)
    (hrun : Run (Machine.AnsweredStep layout config) (.initial db) events m)
    (hnormalised : m.stage = .normalising []) :
    (∀ b, db.startCheckpoint config < b → b ≤ m.db.getCheckpoint → m.db.Covers m.finalized b) ∧
      ∀ b, m.db.Needs b → m.db.getCheckpoint < b ∧ m.db.witnessFromBlock ≤ b := by
  have hsound : m.Sound layout config := hrun.invariant Machine.Sound.step
    (Machine.initial_sound hpending hdispatched hunanchored hstart)
  have hsettled := hsound.stage
  rw [hnormalised] at hsettled
  refine ⟨fun b hb => hsettled.2.covers b (hstart ▸ hb), fun b hneeds => ?_⟩
  have habove : m.db.getCheckpoint < b := hsettled.2.needs b hneeds
  refine ⟨habove, ?_⟩
  unfold Db.witnessFromBlock
  split <;> omega

section Sample

private def unconfigured : Config := ⟨none, 0, fun _ => (0, 0)⟩

/-- Batches of two blocks after block 5. -/
private def twoBlocks : Layout :=
  ⟨(· + 1), fun j => 5 + 2 * j, strictMono_id.add_const 1, fun _ _ h => by simpa using h⟩

private def startAtFive : Db := { Db.empty with checkpoint := some 5 }

private def stateAtFive : OrchestratorState := (start startAtFive .noOp).state

private theorem launch_startAtFive : (Machine.initial startAtFive).AnsweredStep twoBlocks
    unconfigured .launch ⟨startAtFive, .normalising [], 0, []⟩ := by
  have hwrites : startAtFive.startupWrites unconfigured = [] := by decide +kernel
  exact ⟨⟨trivial, by rw [← hwrites]; rfl, by simp [Stage.todo]⟩, trivial⟩

private theorem boot_startAtFive : Machine.AnsweredStep twoBlocks unconfigured
    ⟨startAtFive, .normalising [], 0, []⟩ (.boot .noOp)
    ⟨startAtFive, .running stateAtFive [], 0, []⟩ := by
  have hwrites : stateAtFive.writes = [] := by decide +kernel
  exact ⟨⟨trivial, by rw [← hwrites]; rfl, by simp [Stage.todo]⟩, trivial⟩

/-- Batch 1 is registered and block 6 executed. The process ends when it has stored the
response and not yet the checkpoint. The next startup moves the checkpoint to block 6, and
block 7 is fed. -/
theorem no_block_lost_sample :
    let response : Nitro.EthExecutionResponse := ⟨6, .zero, .zero, .zero 64⟩
    let db := (startAtFive.saveBatch 1 ⟨6, 7, false⟩).saveResponse response
    db.startupWrites unconfigured = [.saveCheckpoint 6] ∧ (db.saveCheckpoint 6).Covers [] 6 ∧
      (db.saveCheckpoint 6).Needs 7 ∧ (db.saveCheckpoint 6).witnessFromBlock ≤ 7 := by
  intro response db
  let saved := startAtFive.saveBatch 1 ⟨6, 7, false⟩
  let committed := (turn ⟨stateAtFive, startAtFive⟩ 0 (.l1Event (.batchCommitted 1 6 7))).state
  let executed := (turn ⟨committed, saved⟩ 0 (.blockResult ⟨6, response⟩)).state
  have hcommitted : committed.writes = [.saveBatch 1 ⟨6, 7, false⟩] := by decide +kernel
  have hexecuted : executed.writes = [.saveResponse response, .saveCheckpoint 6] := by
    decide +kernel
  have hagain : db.startupWrites unconfigured = [.saveCheckpoint 6] := by decide +kernel
  have hcommit : Machine.AnsweredStep twoBlocks unconfigured
      ⟨startAtFive, .running stateAtFive [], 0, []⟩
      (.handle 0 (.l1Event (.batchCommitted 1 6 7)))
      ⟨startAtFive, .running committed [.saveBatch 1 ⟨6, 7, false⟩], 0, []⟩ :=
    ⟨⟨⟨0, le_rfl, rfl, rfl, rfl⟩, by rw [← hcommitted]; rfl, by simp [Stage.todo]; decide⟩, trivial⟩
  have hregister : Machine.AnsweredStep twoBlocks unconfigured
      ⟨startAtFive, .running committed [.saveBatch 1 ⟨6, 7, false⟩], 0, []⟩
      .write ⟨saved, .running committed [], 1, []⟩ :=
    ⟨⟨trivial, rfl, by simp [Stage.todo]⟩, trivial⟩
  have hexecute : Machine.AnsweredStep twoBlocks unconfigured ⟨saved, .running committed [], 1, []⟩
      (.handle 0 (.blockResult ⟨6, response⟩))
      ⟨saved, .running executed [.saveResponse response, .saveCheckpoint 6], 1, []⟩ :=
    ⟨⟨trivial, by rw [← hexecuted]; rfl, by simp [Stage.todo]; decide⟩, rfl⟩
  have hrespond : Machine.AnsweredStep twoBlocks unconfigured
      ⟨saved, .running executed [.saveResponse response, .saveCheckpoint 6], 1, []⟩
      .write ⟨db, .running executed [.saveCheckpoint 6], 1, []⟩ :=
    ⟨⟨trivial, rfl, by simp [Stage.todo]; decide⟩, trivial⟩
  have hcrash : Machine.AnsweredStep twoBlocks unconfigured
      ⟨db, .running executed [.saveCheckpoint 6], 1, []⟩ .crash ⟨db, .down, 1, []⟩ :=
    ⟨⟨trivial, rfl, by simp [Stage.todo]⟩, trivial⟩
  have hrelaunch : Machine.AnsweredStep twoBlocks unconfigured ⟨db, .down, 1, []⟩ .launch
      ⟨db, .normalising [.saveCheckpoint 6], 1, []⟩ :=
    ⟨⟨trivial, by rw [← hagain]; rfl, by simp [Stage.todo]; decide⟩, trivial⟩
  have hnormalise : Machine.AnsweredStep twoBlocks unconfigured
      ⟨db, .normalising [.saveCheckpoint 6], 1, []⟩ .write
      ⟨db.saveCheckpoint 6, .normalising [], 1, []⟩ :=
    ⟨⟨trivial, rfl, by simp [Stage.todo]⟩, trivial⟩
  obtain ⟨hcovers, hneeds⟩ := no_block_lost rfl rfl rfl rfl (.cons launch_startAtFive
    (.cons boot_startAtFive (.cons hcommit (.cons hregister (.cons hexecute (.cons hrespond
      (.cons hcrash (.cons hrelaunch (.cons hnormalise (.nil _)))))))))) rfl
  have hseven : (db.saveCheckpoint 6).Needs 7 :=
    ⟨1, ⟨6, 7, false⟩, by decide +kernel, by decide +kernel, by decide, by decide,
      by decide +kernel⟩
  exact ⟨hagain, hcovers 6 (by decide) (by decide), hseven, (hneeds 7 hseven).2⟩

/-- The task for block 6 is answered with a response for block 99, before any batch is
registered. The checkpoint moves to 6 and the startup after a crash keeps it there, but block
6 has no response and lies in no batch. -/
theorem block_lost_with_wrong_response :
    startAtFive.startCheckpoint unconfigured = twoBlocks.bound 0 ∧
      ∃ events m, Run (Machine.Step twoBlocks unconfigured) (.initial startAtFive) events m ∧
        m.stage = .normalising [] ∧ startAtFive.startCheckpoint unconfigured < 6 ∧
        6 ≤ m.db.getCheckpoint ∧ ¬m.db.Covers m.finalized 6 := by
  let response : Nitro.EthExecutionResponse := ⟨99, .zero, .zero, .zero 64⟩
  let stored := startAtFive.saveResponse response
  let db := stored.saveCheckpoint 6
  let executed := (turn ⟨stateAtFive, startAtFive⟩ 0 (.blockResult ⟨6, response⟩)).state
  have hexecuted : executed.writes = [.saveResponse response, .saveCheckpoint 6] := by
    decide +kernel
  have hagain : db.startupWrites unconfigured = [] := by decide +kernel
  have hexecute : Machine.Step twoBlocks unconfigured ⟨startAtFive, .running stateAtFive [], 0, []⟩
      (.handle 0 (.blockResult ⟨6, response⟩))
      ⟨startAtFive, .running executed [.saveResponse response, .saveCheckpoint 6], 0, []⟩ :=
    ⟨trivial, by rw [← hexecuted]; rfl, by simp [Stage.todo]; decide⟩
  have hrespond : Machine.Step twoBlocks unconfigured
      ⟨startAtFive, .running executed [.saveResponse response, .saveCheckpoint 6], 0, []⟩
      .write ⟨stored, .running executed [.saveCheckpoint 6], 0, []⟩ :=
    ⟨trivial, rfl, by simp [Stage.todo]; decide⟩
  have hadvance : Machine.Step twoBlocks unconfigured
      ⟨stored, .running executed [.saveCheckpoint 6], 0, []⟩ .write
      ⟨db, .running executed [], 0, []⟩ := ⟨trivial, rfl, by simp [Stage.todo]⟩
  have hcrash : Machine.Step twoBlocks unconfigured ⟨db, .running executed [], 0, []⟩ .crash
      ⟨db, .down, 0, []⟩ := ⟨trivial, rfl, by simp [Stage.todo]⟩
  have hrelaunch : Machine.Step twoBlocks unconfigured ⟨db, .down, 0, []⟩ .launch
      ⟨db, .normalising [], 0, []⟩ := ⟨trivial, by rw [← hagain]; rfl, by simp [Stage.todo]⟩
  have hmissing : 6 ∉ db.blockResponses := by decide +kernel
  have hpending : db.pendingBatches = ∅ := Db.execute_keeps Db.pendingBatches rfl
  have hdispatched : db.dispatchedBatches = ∅ := Db.execute_keeps Db.dispatchedBatches rfl
  refine ⟨rfl, _, _, .cons launch_startAtFive.1 (.cons boot_startAtFive.1 (.cons hexecute
    (.cons hrespond (.cons hadvance (.cons hcrash (.cons hrelaunch (.nil _))))))), rfl, by decide,
    by decide, ?_⟩
  rintro (hresponse | ⟨i, batch, hbatch, _⟩ | ⟨i, row, hrow, _⟩ | ⟨batch, hbatch, _⟩)
  · exact hmissing hresponse
  · simp [hpending] at hbatch
  · simp [hdispatched] at hrow
  · cases hbatch

end Sample

end FluentStf.Orchestrator
