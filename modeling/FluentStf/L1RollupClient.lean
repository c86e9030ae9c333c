import FluentStf.Primitives
import Mathlib.Data.List.Basic

/-! The lookup of a batch on L1. `resolve_l2_start_checkpoint` pages through the
`BatchCommitted` logs of the rollup contract from its deploy block on and stops at the first
log with the index of the batch. An index can be committed again after a revert, so the log
at which it stops need not be the current one. -/
namespace FluentStf.L1RollupClient

/-- A `BatchCommitted` log as the L1 node returns it. The index is a `uint256`. The number of
blocks is a `uint24`, so its conversion to `u64` does not fail. -/
structure CommittedLog where
  blockNumber : Option Nat
  batchIndex : Nat
  fromBlockHash : B256
  numberOfBlocks : Fin (2 ^ 24)
deriving DecidableEq

/-- Why a lookup gives no block. -/
inductive LookupError where
  | genesisBatch
  | latestBlock
  | getLogs (current pageEnd : Nat)
  | batchIndexOverflow (batchIndex : Nat)
  | missingBlockNumber
  | notFound (batchId l1DeployBlock latest : Nat)
  | getBlockByHash (hash : B256)
  | l2BlockNotFound (hash : B256) (batchId : Nat)
deriving DecidableEq

/-- The calls to the L1 node. The logs are those of `BatchCommitted` in a range of blocks. -/
structure L1Provider where
  getBlockNumber : Option Nat
  getLogs : Nat → Nat → Option (List CommittedLog)

/-- The call to the L2 node. It fails, finds no block, or gives the number of the block. -/
structure L2Provider where
  getBlockByHash : B256 → Option (Option Nat)

/-- What is kept of a log. -/
structure Commit where
  l1Block : Nat
  numBlocks : Nat
  fromBlockHash : B256
deriving DecidableEq

/-- What the scan makes of a log at which it stops. -/
def CommittedLog.target (log : CommittedLog) : Except LookupError Commit :=
  if 2 ^ 64 ≤ log.batchIndex then .error (.batchIndexOverflow log.batchIndex)
  else match log.blockNumber with
    | none => .error .missingBlockNumber
    | some l1Block => .ok ⟨l1Block, log.numberOfBlocks, log.fromBlockHash⟩

/-- The scan stops at a log of the batch, and at an index that is no `u64`. -/
def CommittedLog.stops (batchId : Nat) (log : CommittedLog) : Bool :=
  2 ^ 64 ≤ log.batchIndex || log.batchIndex == batchId

/-- The loop over the logs of a page. -/
def scanLogs (batchId : Nat) : List CommittedLog → Except LookupError (Option Commit)
  | [] => .ok none
  | log :: logs => if log.stops batchId then some <$> log.target else scanLogs batchId logs

def page : Nat := 50000

section Lookup

variable (l1 : L1Provider) (l2 : L2Provider) (batchId l1DeployBlock : Nat)

/-- The loop over the pages. A page has at least one block, so as many rounds as there are
blocks are enough. -/
def scanPages (latest : Nat) : (rounds current : Nat) → Except LookupError (Option Commit)
  | 0, _ => .ok none
  | rounds + 1, current =>
      if current ≤ latest then
        let pageEnd := min (current + page - 1) latest
        match l1.getLogs current pageEnd with
        | none => .error (.getLogs current pageEnd)
        | some logs =>
            match scanLogs batchId logs with
            | .error e => .error e
            | .ok (some commit) => .ok (some commit)
            | .ok none => scanPages latest rounds (pageEnd + 1)
      else .ok none

/-- The first L2 block, the L1 block of the event and the number of blocks of a batch. The
hash is that of the last L2 block before the batch. -/
def checkpoint (commit : Commit) : Except LookupError (Nat × Nat × Nat) :=
  match l2.getBlockByHash commit.fromBlockHash with
  | none => .error (.getBlockByHash commit.fromBlockHash)
  | some none => .error (.l2BlockNotFound commit.fromBlockHash batchId)
  | some (some n) => .ok (n + 1, commit.l1Block, commit.numBlocks)

/-- Scan L1 from the deploy block for the first commitment of the batch. -/
def resolveL2StartCheckpoint : Except LookupError (Nat × Nat × Nat) :=
  if batchId = 0 then .error .genesisBatch
  else match l1.getBlockNumber with
    | none => .error .latestBlock
    | some latest =>
        match scanPages l1 batchId latest (latest + 1 - l1DeployBlock) l1DeployBlock with
        | .error e => .error e
        | .ok none => .error (.notFound batchId l1DeployBlock latest)
        | .ok (some commit) => checkpoint l2 batchId commit

def fetchBatchRange : Except LookupError (Nat × Nat) := do
  let (l2FromBlock, _, numBlocks) ← resolveL2StartCheckpoint l1 l2 batchId l1DeployBlock
  .ok (l2FromBlock, l2FromBlock + numBlocks - 1)

end Lookup

theorem scanLogs_eq_find (batchId : Nat) (logs : List CommittedLog) :
    scanLogs batchId logs =
      match logs.find? (CommittedLog.stops batchId) with
      | none => .ok none
      | some log => some <$> log.target := by
  induction logs with
  | nil => rfl
  | cons log logs ih =>
      rw [scanLogs, List.find?_cons]
      cases log.stops batchId with
      | true => rfl
      | false => exact ih

theorem scanLogs_append (batchId : Nat) (logs rest : List CommittedLog) :
    scanLogs batchId (logs ++ rest) =
      match scanLogs batchId logs with
      | .error e => .error e
      | .ok (some commit) => .ok (some commit)
      | .ok none => scanLogs batchId rest := by
  induction logs with
  | nil => rfl
  | cons log logs ih =>
      rw [List.cons_append, scanLogs, scanLogs]
      cases log.stops batchId with
      | true => cases log.target <;> rfl
      | false => exact ih

/-- What the rollup contract emits about the commitment of batches. -/
inductive BatchEvent where
  | committed (batchIndex : Nat) (fromBlockHash : B256) (numberOfBlocks : Fin (2 ^ 24))
  /-- The batch and all batches after it are reverted. -/
  | reverted (fromBatchIndex : Nat)
deriving DecidableEq

/-- A log that names a batch, with its L1 block. -/
structure BatchLog where
  blockNumber : Nat
  event : BatchEvent
deriving DecidableEq

def BatchLog.committedLog (log : BatchLog) : Option CommittedLog :=
  match log.event with
  | .committed batchIndex fromBlockHash numberOfBlocks =>
      some ⟨some log.blockNumber, batchIndex, fromBlockHash, numberOfBlocks⟩
  | .reverted _ => none

/-- The commitment of a batch after a log. -/
def BatchLog.apply (batchId : Nat) (commit : Option Commit) (log : BatchLog) : Option Commit :=
  match log.event with
  | .committed batchIndex fromBlockHash numberOfBlocks =>
      if batchIndex = batchId then some ⟨log.blockNumber, numberOfBlocks, fromBlockHash⟩
      else commit
  | .reverted fromBatchIndex => if fromBatchIndex ≤ batchId then none else commit

theorem BatchLog.apply_eq_some {batchId : Nat} {start : Option Commit} {commit : Commit}
    {log : BatchLog} (h : log.apply batchId start = some commit) :
    start = some commit ∨ ∃ found, log.committedLog = some found ∧ found.stops batchId := by
  cases hevent : log.event with
  | committed batchIndex fromBlockHash numberOfBlocks =>
      simp only [BatchLog.apply, hevent] at h
      split at h
      · next hindex =>
          simp only [BatchLog.committedLog, hevent, Option.some.injEq, exists_eq_left']
          simp [CommittedLog.stops, hindex]
      · exact .inl h
  | reverted fromBatchIndex =>
      simp only [BatchLog.apply, hevent] at h
      split at h
      · cases h
      · exact .inl h

/-- The logs of the contract in their order on L1, up to the head, and the L2 blocks by their
hash. -/
structure BatchHistory where
  logs : List BatchLog
  l1DeployBlock : Nat
  latest : Nat
  l2Block : B256 → Option Nat
  ordered : logs.Pairwise fun log later => log.blockNumber ≤ later.blockNumber
  deployed : ∀ log ∈ logs, l1DeployBlock ≤ log.blockNumber
  mined : ∀ log ∈ logs, log.blockNumber ≤ latest

/-- A range of sorted keys, cut in two. -/
theorem filter_range_split {α : Type} (key : α → Nat) {l : List α} {first cut last : Nat}
    (hsorted : l.Pairwise fun a b => key a ≤ key b) (hfirst : first ≤ cut + 1)
    (hlast : cut ≤ last) :
    (l.filter fun a => first ≤ key a && key a ≤ last) =
      (l.filter fun a => first ≤ key a && key a ≤ cut) ++
        l.filter fun a => cut + 1 ≤ key a && key a ≤ last := by
  induction l with
  | nil => rfl
  | cons a l ih =>
      obtain ⟨hhead, htail⟩ := List.pairwise_cons.mp hsorted
      have hsplit := ih htail
      obtain hlt | hle := Nat.lt_or_ge cut (key a)
      · -- all keys from here on lie behind the cut
        have hkey : ∀ b ∈ a :: l, cut < key b := by
          intro b hb
          obtain rfl | hb := List.mem_cons.mp hb
          · exact hlt
          · exact hlt.trans_le (hhead b hb)
        have hnone : ((a :: l).filter fun a => first ≤ key a && key a ≤ cut) = [] := by
          rw [List.filter_eq_nil_iff]
          intro b hb
          simp [(hkey b hb).not_ge]
        rw [hnone, List.nil_append]
        refine List.filter_congr fun b hb => ?_
        have hb := hkey b hb
        rw [Bool.eq_iff_iff]
        simp only [Bool.and_eq_true, decide_eq_true_eq]
        omega
      · have hbehind : ¬ (cut + 1 ≤ key a) := by omega
        simp only [List.filter_cons, hsplit, hle, hle.trans hlast, hbehind, decide_true,
          decide_false, Bool.and_true, Bool.false_eq_true, if_false]
        split <;> rfl

namespace BatchHistory

variable (history : BatchHistory)

def getLogs (first last : Nat) : List CommittedLog :=
  (history.logs.filter fun log => first ≤ log.blockNumber && log.blockNumber ≤ last).filterMap
    BatchLog.committedLog

/-- Nodes that answer every call from the history. -/
def l1 : L1Provider := ⟨some history.latest, fun first last => some (history.getLogs first last)⟩

def l2 : L2Provider := ⟨fun hash => some (history.l2Block hash)⟩

/-- The last commitment of a batch that was not reverted. -/
def currentCommit (batchId : Nat) : Option Commit :=
  history.logs.foldl (BatchLog.apply batchId) none

/-- The log at which a scan over the whole history stops. -/
def firstStop (batchId : Nat) : Option CommittedLog :=
  (history.logs.filterMap BatchLog.committedLog).find? (CommittedLog.stops batchId)

theorem getLogs_split {first cut last : Nat} (hfirst : first ≤ cut + 1) (hlast : cut ≤ last) :
    history.getLogs first last = history.getLogs first cut ++ history.getLogs (cut + 1) last := by
  rw [getLogs, filter_range_split _ history.ordered hfirst hlast, List.filterMap_append]
  rfl

theorem getLogs_of_lt {first last : Nat} (h : last < first) : history.getLogs first last = [] := by
  have hnone : (history.logs.filter
      fun log => first ≤ log.blockNumber && log.blockNumber ≤ last) = [] := by
    rw [List.filter_eq_nil_iff]
    intro log _
    simp only [Bool.and_eq_true, decide_eq_true_eq]
    omega
  rw [getLogs, hnone, List.filterMap_nil]

theorem getLogs_all :
    history.getLogs history.l1DeployBlock history.latest =
      history.logs.filterMap BatchLog.committedLog := by
  rw [getLogs, List.filter_eq_self.mpr]
  intro log hlog
  simp [history.deployed log hlog, history.mined log hlog]

/-- The pages together are one scan. -/
theorem scanPages_eq (batchId : Nat) {latest : Nat} (rounds current : Nat)
    (hrounds : latest + 1 ≤ current + rounds) :
    scanPages history.l1 batchId latest rounds current =
      scanLogs batchId (history.getLogs current latest) := by
  induction rounds generalizing current with
  | zero => rw [scanPages, getLogs_of_lt history (by omega), scanLogs]
  | succ rounds ih =>
      rw [scanPages]
      split
      · next hle =>
          have hpage : 0 < page := by decide
          have hcut : current ≤ min (current + page - 1) latest := by omega
          rw [getLogs_split history (hcut.trans (Nat.le_succ _)) (min_le_right _ _),
            scanLogs_append, ← ih (min (current + page - 1) latest + 1) (by omega)]
          rfl
      · rw [getLogs_of_lt history (by omega), scanLogs]

/-- The lookup stops at the first log of the batch. -/
theorem resolve_eq_firstStop {batchId : Nat} (hid : 1 ≤ batchId) :
    resolveL2StartCheckpoint history.l1 history.l2 batchId history.l1DeployBlock =
      match history.firstStop batchId with
      | none => .error (.notFound batchId history.l1DeployBlock history.latest)
      | some log => log.target.bind (checkpoint history.l2 batchId) := by
  have hscan := @scanPages_eq history batchId history.latest
    (history.latest + 1 - history.l1DeployBlock) history.l1DeployBlock (by omega)
  rw [getLogs_all, scanLogs_eq_find] at hscan
  rw [resolveL2StartCheckpoint, if_neg (by omega)]
  simp only [l1] at hscan ⊢
  rw [hscan, ← firstStop]
  cases history.firstStop batchId with
  | none => rfl
  | some log =>
      simp only
      cases log.target with
      | error e => rfl
      | ok commit => rfl

/-- A scan for a committed batch stops. -/
theorem exists_firstStop {batchId : Nat} {commit : Commit}
    (hcommit : history.currentCommit batchId = some commit) :
    ∃ log, history.firstStop batchId = some log := by
  have hfold : ∀ (logs : List BatchLog) (start : Option Commit),
      logs.foldl (BatchLog.apply batchId) start = some commit → start = some commit ∨
        ∃ log ∈ logs, ∃ found, log.committedLog = some found ∧ found.stops batchId := by
    intro logs
    induction logs with
    | nil => exact fun start h => .inl h
    | cons log logs ih =>
        intro start h
        obtain hstart | ⟨source, hsource, hfound⟩ := ih _ h
        · exact (BatchLog.apply_eq_some hstart).imp_right fun hfound => ⟨log, .head _, hfound⟩
        · exact .inr ⟨source, .tail _ hsource, hfound⟩
  obtain hnone | ⟨source, hsource, found, hfound, hstops⟩ := hfold _ _ hcommit
  · cases hnone
  · rw [← Option.isSome_iff_exists, firstStop, List.find?_isSome]
    exact ⟨found, List.mem_filterMap.mpr ⟨source, hsource, hfound⟩, hstops⟩

theorem checkpoint_eq_ok {batchId n l1Block numBlocks : Nat} {commit : Commit} :
    checkpoint history.l2 batchId commit = .ok (n + 1, l1Block, numBlocks) ↔
      history.l2Block commit.fromBlockHash = some n ∧ commit.l1Block = l1Block ∧
        commit.numBlocks = numBlocks := by
  simp only [checkpoint, l2]
  cases history.l2Block commit.fromBlockHash with
  | none => simp
  | some m => simp

/-- The log has the index of the batch and says the same of it as the commitment. -/
def Agrees (batchId : Nat) (commit : Commit) (log : CommittedLog) : Prop :=
  log.batchIndex = batchId ∧ log.blockNumber = some commit.l1Block ∧
    log.numberOfBlocks = commit.numBlocks ∧
    history.l2Block log.fromBlockHash = history.l2Block commit.fromBlockHash

theorem target_checkpoint_iff {batchId n : Nat} {commit : Commit} {log : CommittedLog}
    (hid : batchId < 2 ^ 64) (hstops : log.stops batchId)
    (hl2 : history.l2Block commit.fromBlockHash = some n) :
    log.target.bind (checkpoint history.l2 batchId) =
        .ok (n + 1, commit.l1Block, commit.numBlocks) ↔
      history.Agrees batchId commit log := by
  simp only [CommittedLog.stops, Bool.or_eq_true, decide_eq_true_eq, beq_iff_eq] at hstops
  rw [CommittedLog.target]
  split
  · next hover =>
      have hindex : log.batchIndex ≠ batchId := by omega
      simp [Except.bind, Agrees, hindex]
  · next hfits =>
      have hindex : log.batchIndex = batchId := hstops.resolve_left hfits
      cases hblock : log.blockNumber with
      | none => simp [Except.bind, Agrees, hblock]
      | some l1Block =>
          simp only [Except.bind, checkpoint_eq_ok, Agrees, hindex, hblock, hl2, true_and,
            Option.some.injEq]
          tauto

end BatchHistory

/-- The lookups answer with the current commitment of a batch exactly if the first log of
the batch on L1 already agrees with it. -/
theorem lookup_follows_commit_iff (history : BatchHistory) {batchId n : Nat} {commit : Commit}
    (hid : 1 ≤ batchId) (hu64 : batchId < 2 ^ 64)
    (hcommit : history.currentCommit batchId = some commit)
    (hl2 : history.l2Block commit.fromBlockHash = some n) :
    (resolveL2StartCheckpoint history.l1 history.l2 batchId history.l1DeployBlock =
          .ok (n + 1, commit.l1Block, commit.numBlocks) ∧
        fetchBatchRange history.l1 history.l2 batchId history.l1DeployBlock =
          .ok (n + 1, n + 1 + commit.numBlocks - 1)) ↔
      ∀ log, history.firstStop batchId = some log → history.Agrees batchId commit log := by
  have hrange : resolveL2StartCheckpoint history.l1 history.l2 batchId history.l1DeployBlock =
        .ok (n + 1, commit.l1Block, commit.numBlocks) →
      fetchBatchRange history.l1 history.l2 batchId history.l1DeployBlock =
        .ok (n + 1, n + 1 + commit.numBlocks - 1) := by
    intro h
    rw [fetchBatchRange, h]
    rfl
  rw [and_iff_left_of_imp hrange, history.resolve_eq_firstStop hid]
  obtain ⟨log, hstop⟩ := history.exists_firstStop hcommit
  have hstops : log.stops batchId := List.find?_some hstop
  simp only [hstop, history.target_checkpoint_iff hu64 hstops hl2, Option.some.injEq,
    forall_eq']

section Sample

/-- Two batches are committed, both are reverted and committed again with other ranges. The
L2 block with number `n` has the hash `n`. -/
def recommitted : BatchHistory where
  logs := [⟨10, .committed 1 (.ofNat 0) 3⟩, ⟨12, .committed 2 (.ofNat 3) 4⟩, ⟨20, .reverted 1⟩,
    ⟨25, .committed 1 (.ofNat 0) 5⟩, ⟨27, .committed 2 (.ofNat 5) 4⟩]
  l1DeployBlock := 7
  latest := 30
  l2Block hash := (List.range 10).find? fun n => hash = .ofNat n
  ordered := by decide
  deployed := by decide
  mined := by decide

/-- Only the second batch is reverted and committed again. -/
def secondRecommitted : BatchHistory where
  logs := [⟨10, .committed 1 (.ofNat 0) 3⟩, ⟨12, .committed 2 (.ofNat 3) 4⟩, ⟨20, .reverted 2⟩,
    ⟨27, .committed 2 (.ofNat 3) 5⟩]
  l1DeployBlock := 7
  latest := 30
  l2Block hash := (List.range 10).find? fun n => hash = .ofNat n
  ordered := by decide
  deployed := by decide
  mined := by decide

theorem lookup_follows_commit_first :
    resolveL2StartCheckpoint secondRecommitted.l1 secondRecommitted.l2 1 7 = .ok (1, 10, 3) ∧
      fetchBatchRange secondRecommitted.l1 secondRecommitted.l2 1 7 = .ok (1, 3) := by
  refine (lookup_follows_commit_iff secondRecommitted (by decide) (by decide)
    (by decide : secondRecommitted.currentCommit 1 = some ⟨10, 3, .ofNat 0⟩)
    (by decide : secondRecommitted.l2Block (.ofNat 0) = some 0)).mpr ?_
  intro log hstop
  have hlog : log = ⟨some 10, 1, .ofNat 0, 3⟩ := by
    rw [show secondRecommitted.firstStop 1 = some ⟨some 10, 1, .ofNat 0, 3⟩ by decide] at hstop
    exact (Option.some.inj hstop).symm
  subst hlog
  exact ⟨rfl, rfl, rfl, rfl⟩

/-- The second batch now begins at block 6, but the lookup answers with its reverted range. -/
theorem lookup_of_recommitted :
    recommitted.currentCommit 2 = some ⟨27, 4, .ofNat 5⟩ ∧
      recommitted.l2Block (.ofNat 5) = some 5 ∧
      resolveL2StartCheckpoint recommitted.l1 recommitted.l2 2 7 = .ok (4, 12, 4) ∧
      fetchBatchRange recommitted.l1 recommitted.l2 2 7 = .ok (4, 7) := by
  decide +kernel

end Sample

end FluentStf.L1RollupClient
