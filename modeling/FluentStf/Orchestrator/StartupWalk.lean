import FluentStf.Orchestrator.Startup

/-! What the walk over the pending batches at startup finds: the first block that has to be
executed again, and where the checkpoint goes when there is none. -/
namespace FluentStf.Orchestrator

section Walk

variable {hasResponse signed : Nat → Bool} {currentCkpt newCkpt : Nat}
  {pending : List (Nat × PendingBatch)}

/-- The blocks of pending batches without signature that have no response. -/
def missingBlocks (hasResponse signed : Nat → Bool) (pending : List (Nat × PendingBatch)) :
    Set Nat :=
  {b | ∃ row ∈ pending, signed row.1 = false ∧
    row.2.fromBlock ≤ b ∧ b ≤ row.2.toBlock ∧ hasResponse b = false}

theorem scanBlocks_missing {blocks : List Nat} {gap : Nat}
    (h : scanBlocks hasResponse currentCkpt blocks = (newCkpt, some gap)) :
    hasResponse gap = false := by
  induction blocks generalizing currentCkpt with
  | nil => cases h
  | cons b blocks ih =>
      rw [scanBlocks] at h
      split at h
      · exact ih h
      · next hb =>
          cases h
          simpa using hb

/-- The loop leaves the checkpoint at the last block that it went over. -/
theorem scanBlocks_last {blocks : List Nat}
    (h : scanBlocks hasResponse currentCkpt blocks = (newCkpt, none)) :
    newCkpt = blocks.getLast?.getD currentCkpt := by
  induction blocks generalizing currentCkpt with
  | nil =>
      cases h
      rfl
  | cons b blocks ih =>
      rw [scanBlocks] at h
      split at h
      · rw [ih h, List.getLast?_cons]
        rfl
      · cases h

theorem getLast?_blocks (fromBlock toBlock : Nat) :
    (blocks fromBlock toBlock).getLast? = if fromBlock ≤ toBlock then some toBlock else none := by
  rw [blocks, List.getLast?_range']
  split_ifs with hempty hle
  · omega
  · rfl
  · exact congrArg some (by omega)
  · omega

/-- A batch that moves the checkpoint when the walk goes past it. -/
def Moves (signed : Nat → Bool) (row : Nat × PendingBatch) : Bool :=
  signed row.1 || decide (row.2.fromBlock ≤ row.2.toBlock)

/-- No block of the batch has to be executed again. -/
def Complete (hasResponse signed : Nat → Bool) (row : Nat × PendingBatch) : Prop :=
  signed row.1 = false → ∀ b, row.2.fromBlock ≤ b → b ≤ row.2.toBlock → hasResponse b = true

/-- The first block of the batch that has to be executed again. -/
structure FirstMissing (hasResponse signed : Nat → Bool) (row : Nat × PendingBatch) (gap : Nat) :
    Prop where
  unsigned : signed row.1 = false
  from_le : row.2.fromBlock ≤ gap
  le_to : gap ≤ row.2.toBlock
  missing : hasResponse gap = false
  before : ∀ b, row.2.fromBlock ≤ b → b < gap → hasResponse b = true

/-- What the walk does at one batch: it goes past it, or stops at its first missing block. -/
theorem normalizeStartupCheckpoint_cons (hasResponse signed : Nat → Bool) (currentCkpt : Nat)
    (row : Nat × PendingBatch) (pending : List (Nat × PendingBatch)) :
    (Complete hasResponse signed row ∧
        normalizeStartupCheckpoint hasResponse signed currentCkpt (row :: pending) =
          normalizeStartupCheckpoint hasResponse signed
            (if Moves signed row then row.2.toBlock else currentCkpt) pending) ∨
      ∃ gap, FirstMissing hasResponse signed row gap ∧
        normalizeStartupCheckpoint hasResponse signed currentCkpt (row :: pending) =
          ⟨gap - 1, (pending.map Prod.fst).filter signed, some gap⟩ := by
  rw [normalizeStartupCheckpoint]
  split
  · next hsigned =>
      have hmoves : Moves signed row = true := by simp [Moves, hsigned]
      refine .inl ⟨fun hunsigned => ?_, by rw [if_pos hmoves]⟩
      rw [hsigned] at hunsigned
      cases hunsigned
  · next hsigned =>
      rw [Bool.not_eq_true] at hsigned
      split
      · next ckpt hscan =>
          refine .inl ⟨fun _ b hfrom hto => ?_, ?_⟩
          · exact (scanBlocks_none hscan).1 b (mem_blocks.mpr ⟨hfrom, hto⟩)
          · rw [scanBlocks_last hscan, getLast?_blocks, Moves, hsigned, Bool.false_or]
            by_cases hle : row.2.fromBlock ≤ row.2.toBlock
            · rw [if_pos hle, if_pos (decide_eq_true hle), Option.getD_some]
            · rw [if_neg hle, if_neg (by simpa using hle), Option.getD_none]
      · next ckpt gap hscan =>
          obtain ⟨rfl, hgap, hbefore⟩ := scanBlocks_some (blocks_pairwise ..) hscan
          rw [mem_blocks] at hgap
          refine .inr ⟨gap, ⟨hsigned, hgap.1, hgap.2, scanBlocks_missing hscan, ?_⟩, ?_⟩
          · intro b hfrom hlt
            exact hbefore b (mem_blocks.mpr ⟨hfrom, by omega⟩) hlt
          · simp [hsigned]

theorem missingBlocks_cons_of_complete {row : Nat × PendingBatch}
    (h : Complete hasResponse signed row) :
    missingBlocks hasResponse signed (row :: pending) =
      missingBlocks hasResponse signed pending := by
  ext b
  constructor
  · rintro ⟨other, hother, hsigned, hfrom, hto, hmissing⟩
    obtain rfl | hother := List.mem_cons.mp hother
    · have hresponse := h hsigned b hfrom hto
      rw [hmissing] at hresponse
      cases hresponse
    · exact ⟨other, hother, hsigned, hfrom, hto, hmissing⟩
  · rintro ⟨other, hother, hmissing⟩
    exact ⟨other, .tail _ hother, hmissing⟩

theorem isLeast_missingBlocks_cons {row : Nat × PendingBatch} {gap : Nat}
    (hlater : ∀ later ∈ pending, row.2.toBlock < later.2.fromBlock)
    (h : FirstMissing hasResponse signed row gap) :
    IsLeast (missingBlocks hasResponse signed (row :: pending)) gap := by
  refine ⟨⟨row, .head _, h.unsigned, h.from_le, h.le_to, h.missing⟩, ?_⟩
  rintro b ⟨other, hother, _, hfrom, _, hmissing⟩
  by_contra hlt
  obtain rfl | hother := List.mem_cons.mp hother
  · have hresponse := h.before b hfrom (by omega)
    rw [hmissing] at hresponse
    cases hresponse
  · have hto := h.le_to
    have habove := hlater other hother
    omega

/-- The walk stops exactly if a block is missing, and at the first one. -/
theorem earliestGap_spec (hpending : Ascending pending) :
    match (normalizeStartupCheckpoint hasResponse signed currentCkpt pending).earliestGap with
    | none => missingBlocks hasResponse signed pending = ∅
    | some gap => IsLeast (missingBlocks hasResponse signed pending) gap := by
  induction pending generalizing currentCkpt with
  | nil =>
      refine Set.eq_empty_of_forall_notMem fun b hb => ?_
      obtain ⟨row, hrow, _⟩ := hb
      cases hrow
  | cons row pending ih =>
      obtain ⟨hpairwise, hpositive⟩ := hpending
      obtain ⟨hhead, htail⟩ := List.pairwise_cons.mp hpairwise
      obtain ⟨hcomplete, heq⟩ | ⟨gap, hgap, heq⟩ :=
        normalizeStartupCheckpoint_cons hasResponse signed currentCkpt row pending
      · rw [heq, missingBlocks_cons_of_complete hcomplete]
        exact ih ⟨htail, fun other hother => hpositive other (.tail _ hother)⟩
      · rw [heq]
        exact isLeast_missingBlocks_cons (fun later h => (hhead later h).2) hgap

theorem isLeast_of_earliestGap {gap : Nat} (hpending : Ascending pending)
    (h : (normalizeStartupCheckpoint hasResponse signed currentCkpt pending).earliestGap =
      some gap) :
    IsLeast (missingBlocks hasResponse signed pending) gap := by
  have hspec := @earliestGap_spec hasResponse signed currentCkpt pending hpending
  rw [h] at hspec
  exact hspec

theorem missingBlocks_eq_empty (hpending : Ascending pending)
    (h : (normalizeStartupCheckpoint hasResponse signed currentCkpt pending).earliestGap = none) :
    missingBlocks hasResponse signed pending = ∅ := by
  have hspec := @earliestGap_spec hasResponse signed currentCkpt pending hpending
  rw [h] at hspec
  exact hspec

/-- Where the walk stops, the checkpoint is the block before the gap, and the signatures
listed as stale are those of the batches above it. -/
theorem stop_at_gap {gap : Nat} (hpending : Ascending pending)
    (hnonempty : ∀ row ∈ pending, row.2.fromBlock ≤ row.2.toBlock)
    (h : (normalizeStartupCheckpoint hasResponse signed currentCkpt pending).earliestGap =
      some gap) :
    (normalizeStartupCheckpoint hasResponse signed currentCkpt pending).newCkpt = gap - 1 ∧
      (normalizeStartupCheckpoint hasResponse signed currentCkpt pending).staleSignatureIndexes =
        (pending.filter fun row => signed row.1 && decide (gap < row.2.fromBlock)).map
          Prod.fst := by
  induction pending generalizing currentCkpt with
  | nil => cases h
  | cons row pending ih =>
      obtain ⟨hpairwise, hpositive⟩ := hpending
      obtain ⟨hhead, htail⟩ := List.pairwise_cons.mp hpairwise
      obtain ⟨hcomplete, heq⟩ | ⟨found, hfound, heq⟩ :=
        normalizeStartupCheckpoint_cons hasResponse signed currentCkpt row pending
      · rw [heq] at h ⊢
        have hrest : Ascending pending :=
          ⟨htail, fun other hother => hpositive other (.tail _ hother)⟩
        -- the gap lies in a later batch, so this one is below it
        have hbelow : ¬ gap < row.2.fromBlock := by
          obtain ⟨later, hlater, _, hfrom, _⟩ := (isLeast_of_earliestGap hrest h).1
          have hrow := hnonempty row (.head _)
          have habove := (hhead later hlater).2
          omega
        rw [List.filter_cons_of_neg (by simp [hbelow])]
        exact ih hrest (fun other hother => hnonempty other (.tail _ hother)) h
      · rw [heq] at h ⊢
        cases h
        refine ⟨rfl, ?_⟩
        have habove : ∀ later ∈ pending,
            (signed later.1 && decide (gap < later.2.fromBlock)) = signed later.1 := by
          intro later hlater
          have hlt : gap < later.2.fromBlock := hfound.le_to.trans_lt (hhead later hlater).2
          simp [hlt]
        rw [List.filter_cons_of_neg (by simp [hfound.unsigned]), List.filter_congr habove]
        exact List.filter_map ..

/-- The walk is exact: it finds the first missing block if there is one, puts the checkpoint
right below it and lists the signatures above it. -/
theorem startup_walk_exact (hpending : Ascending pending)
    (hnonempty : ∀ row ∈ pending, row.2.fromBlock ≤ row.2.toBlock) :
    let result := normalizeStartupCheckpoint hasResponse signed currentCkpt pending
    (∀ gap, result.earliestGap = some gap ↔
        IsLeast (missingBlocks hasResponse signed pending) gap) ∧
      (result.earliestGap = none ↔ missingBlocks hasResponse signed pending = ∅) ∧
      (∀ gap, result.earliestGap = some gap → result.newCkpt = gap - 1 ∧
        result.staleSignatureIndexes =
          (pending.filter fun row => signed row.1 && decide (gap < row.2.fromBlock)).map
            Prod.fst) ∧
      (result.earliestGap = none → result.staleSignatureIndexes = []) ∧
      ∀ row ∈ pending, ∀ b, row.2.fromBlock ≤ b → b ≤ row.2.toBlock → b ≤ result.newCkpt →
        hasResponse b ∨ signed row.1 ∧ row.1 ∉ result.staleSignatureIndexes := by
  intro result
  have hleast : ∀ gap, result.earliestGap = some gap →
      IsLeast (missingBlocks hasResponse signed pending) gap :=
    fun gap h => isLeast_of_earliestGap hpending h
  have hempty : result.earliestGap = none → missingBlocks hasResponse signed pending = ∅ :=
    fun h => missingBlocks_eq_empty hpending h
  refine ⟨fun gap => ⟨hleast gap, fun h => ?_⟩, ⟨hempty, fun h => ?_⟩,
    fun gap h => stop_at_gap hpending hnonempty h, stale_eq_nil,
    normalizeStartupCheckpoint_covers hpending⟩
  · cases hgap : result.earliestGap with
    | none =>
        have hmem := h.1
        rw [hempty hgap] at hmem
        cases hmem
    | some found => rw [(hleast found hgap).unique h]
  · cases hgap : result.earliestGap with
    | none => rfl
    | some found =>
        have hmem := (hleast found hgap).1
        rw [h] at hmem
        cases hmem

/-- Without a gap the checkpoint goes to the end of the last batch that moves it. -/
theorem newCkpt_of_no_gap
    (h : (normalizeStartupCheckpoint hasResponse signed currentCkpt pending).earliestGap = none) :
    (normalizeStartupCheckpoint hasResponse signed currentCkpt pending).newCkpt =
      ((pending.filter (Moves signed)).getLast?.map fun row => row.2.toBlock).getD
        currentCkpt := by
  induction pending generalizing currentCkpt with
  | nil => rfl
  | cons row pending ih =>
      obtain ⟨_, heq⟩ | ⟨_, _, heq⟩ :=
        normalizeStartupCheckpoint_cons hasResponse signed currentCkpt row pending
      · rw [heq] at h ⊢
        rw [ih h]
        split
        · next hmoves =>
            rw [List.filter_cons_of_pos hmoves, List.getLast?_cons]
            cases (pending.filter (Moves signed)).getLast? <;> rfl
        · next hmoves => rw [List.filter_cons_of_neg hmoves]
      · rw [heq] at h
        cases h

/-- The first block that is executed after the startup. -/
def witnessFrom (checkpoint : Nat) : Nat := if 0 < checkpoint then checkpoint + 1 else 0

/-- The walk does not go back: no block up to the checkpoint is executed again. -/
def KeepsCheckpoint (hasResponse signed : Nat → Bool) (currentCkpt : Nat)
    (pending : List (Nat × PendingBatch)) : Prop :=
  let result := normalizeStartupCheckpoint hasResponse signed currentCkpt pending
  currentCkpt ≤ result.newCkpt ∧
    ∀ b, 0 < b → b ≤ currentCkpt → b < witnessFrom result.newCkpt

/-- When no block of a pending batch is missing, the checkpoint is kept exactly if the last batch
that moves it reaches up to it. -/
theorem keeps_checkpoint_iff
    (h : (normalizeStartupCheckpoint hasResponse signed currentCkpt pending).earliestGap = none) :
    KeepsCheckpoint hasResponse signed currentCkpt pending ↔
      ∀ row ∈ (pending.filter (Moves signed)).getLast?, currentCkpt ≤ row.2.toBlock := by
  have hkeeps : KeepsCheckpoint hasResponse signed currentCkpt pending ↔
      currentCkpt ≤
        (normalizeStartupCheckpoint hasResponse signed currentCkpt pending).newCkpt := by
    refine ⟨And.left, fun hle => ⟨hle, fun b hpos hb => ?_⟩⟩
    rw [witnessFrom, if_pos (by omega)]
    omega
  rw [hkeeps, newCkpt_of_no_gap h]
  cases (pending.filter (Moves signed)).getLast? with
  | none => simp
  | some row => simp

end Walk

section Sample

/-- Batch 103 is not signed and has responses up to block 125. -/
def gappedBatches : List (Nat × PendingBatch) :=
  [(101, ⟨100, 110, true⟩), (102, ⟨111, 120, true⟩), (103, ⟨121, 130, true⟩),
    (104, ⟨131, 140, true⟩)]

def partlyExecuted (b : Nat) : Bool := decide (121 ≤ b ∧ b ≤ 125)

def signedAround (batchIndex : Nat) : Bool := batchIndex != 103

theorem startup_walk_gapped :
    normalizeStartupCheckpoint partlyExecuted signedAround 140 gappedBatches =
        ⟨125, [104], some 126⟩ ∧
      IsLeast (missingBlocks partlyExecuted signedAround gappedBatches) 126 := by
  have hpending : Ascending gappedBatches := ⟨by decide, by decide⟩
  have hresult : normalizeStartupCheckpoint partlyExecuted signedAround 140 gappedBatches =
      ⟨125, [104], some 126⟩ := by decide
  have hexact := @startup_walk_exact partlyExecuted signedAround 140 gappedBatches hpending
    (by decide)
  exact ⟨hresult, (hexact.1 126).mp (by rw [hresult])⟩

/-- Two batches, all of whose blocks have responses, as have five blocks above them. -/
def committedBatches : List (Nat × PendingBatch) :=
  [(1, ⟨5, 10, true⟩), (2, ⟨11, 15, true⟩)]

def executedBeyond (b : Nat) : Bool := decide (5 ≤ b ∧ b ≤ 20)

def unsignedBatches (_ : Nat) : Bool := false

theorem checkpoint_kept_at_end :
    (normalizeStartupCheckpoint executedBeyond unsignedBatches 15 committedBatches).earliestGap =
        none ∧
      KeepsCheckpoint executedBeyond unsignedBatches 15 committedBatches :=
  ⟨by decide, (keeps_checkpoint_iff (by decide)).mpr (by decide)⟩

/-- The blocks from 16 to 20 are executed again. -/
theorem checkpoint_goes_back :
    Ascending committedBatches ∧
      committedBatches.IsChain (fun row next => next.2.fromBlock = row.2.toBlock + 1) ∧
      normalizeStartupCheckpoint executedBeyond unsignedBatches 20 committedBatches =
        ⟨15, [], none⟩ ∧
      ¬ KeepsCheckpoint executedBeyond unsignedBatches 20 committedBatches := by
  have hresult : normalizeStartupCheckpoint executedBeyond unsignedBatches 20 committedBatches =
      ⟨15, [], none⟩ := by decide
  refine ⟨⟨by decide, by decide⟩, by decide, hresult, fun hkeeps => ?_⟩
  have hle : 20 ≤ (normalizeStartupCheckpoint executedBeyond unsignedBatches 20
    committedBatches).newCkpt := hkeeps.1
  rw [hresult] at hle
  exact absurd hle (by decide)

end Sample

end FluentStf.Orchestrator
