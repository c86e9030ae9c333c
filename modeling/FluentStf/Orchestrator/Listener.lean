import FluentStf.Orchestrator.Startup
import FluentStf.Orchestrator.Turn

/-! The L1 listener. It polls the logs of the rollup contract page by page and sends them to
the orchestrator. After a crash or a revert it starts again at a block that `main` takes from
the database. Block numbers are `u64` in the source and natural numbers here: the sums and
differences below are those of the source as long as no block is near `2 ^ 64`. -/
namespace FluentStf.Orchestrator

/-- The events of the rollup contract that the listener asks for. -/
inductive RollupEvent where
  | batchCommitted (batchIndex : Nat) (fromBlockHash toBlockHash : B256)
  | batchSubmitted (batchIndex : Nat)
  | batchPreconfirmed (batchIndex : Nat) (transactionHash : B256)
  | batchReverted (fromBatchIndex : Nat)
deriving DecidableEq

/-- A log of the rollup contract, with its place on L1. -/
structure RollupLog where
  blockNumber : Nat
  logIndex : Nat
  event : RollupEvent
deriving DecidableEq

namespace RollupLog

/-- The order of the logs on L1. -/
def Before (log later : RollupLog) : Prop :=
  log.blockNumber < later.blockNumber ∨
    log.blockNumber = later.blockNumber ∧ log.logIndex < later.logIndex

instance (log later : RollupLog) : Decidable (log.Before later) :=
  inferInstanceAs (Decidable (_ ∨ _))

/-- The index of a batch is a `uint256` on L1. -/
def toU64 (n : Nat) : Option Nat := if n < 2 ^ 64 then some n else none

/-- The event that is sent for a log. A batch is committed with the hash of the block before
it and the hash of its last block. -/
def decode (l2Block : B256 → Option Nat) (log : RollupLog) : Option L1Event :=
  match log.event with
  | .batchCommitted i fromBlockHash toBlockHash => do
      let batchIndex ← toU64 i
      let fromBlock ← l2Block fromBlockHash
      let toBlock ← l2Block toBlockHash
      some (.batchCommitted batchIndex (fromBlock + 1) toBlock)
  | .batchSubmitted i => (toU64 i).map .batchSubmitted
  | .batchPreconfirmed i transactionHash =>
      (toU64 i).map fun batchIndex => .batchPreconfirmed batchIndex transactionHash log.blockNumber
  | .batchReverted i =>
      (toU64 i).map fun fromBatchIndex => .batchReverted fromBatchIndex log.blockNumber

/-- What a log tells the orchestrator: an event of the log's own kind for the batch that it
names. A commit tells the L2 blocks of the batch, which begins after the block with the first
hash; preconfirmation and revert tell the L1 block of the log. -/
inductive Reports (l2Block : B256 → Option Nat) (blockNumber : Nat) : RollupEvent → L1Event → Prop
  | batchCommitted {i fromBlock toBlock : Nat} {fromBlockHash toBlockHash : B256}
      (hfrom : l2Block fromBlockHash = some fromBlock) (hto : l2Block toBlockHash = some toBlock) :
      Reports l2Block blockNumber (.batchCommitted i fromBlockHash toBlockHash)
        (.batchCommitted i (fromBlock + 1) toBlock)
  | batchSubmitted (i : Nat) : Reports l2Block blockNumber (.batchSubmitted i) (.batchSubmitted i)
  | batchPreconfirmed (i : Nat) (transactionHash : B256) :
      Reports l2Block blockNumber (.batchPreconfirmed i transactionHash)
        (.batchPreconfirmed i transactionHash blockNumber)
  | batchReverted (i : Nat) :
      Reports l2Block blockNumber (.batchReverted i) (.batchReverted i blockNumber)

theorem toU64_eq_some {n m : Nat} (h : toU64 n = some m) : n = m := by
  rw [toU64, Option.ite_none_right_eq_some] at h
  exact Option.some.inj h.2

theorem reports_of_decode {l2Block : B256 → Option Nat} {log : RollupLog} {event : L1Event}
    (h : log.decode l2Block = some event) :
    Reports l2Block log.blockNumber log.event event := by
  obtain ⟨blockNumber, logIndex, rollupEvent⟩ := log
  cases rollupEvent with
  | batchCommitted i fromBlockHash toBlockHash =>
      obtain ⟨batchIndex, hindex, h⟩ := Option.bind_eq_some_iff.mp h
      obtain ⟨fromBlock, hfrom, h⟩ := Option.bind_eq_some_iff.mp h
      obtain ⟨toBlock, hto, h⟩ := Option.bind_eq_some_iff.mp h
      cases toU64_eq_some hindex
      cases h
      exact .batchCommitted hfrom hto
  | batchSubmitted | batchPreconfirmed | batchReverted =>
      obtain ⟨batchIndex, hindex, rfl⟩ := Option.map_eq_some_iff.mp h
      cases toU64_eq_some hindex
      constructor

theorem blockNumber_of_decode {l2Block : B256 → Option Nat} {log : RollupLog} {i l1Block : Nat}
    (h : log.decode l2Block = some (.batchReverted i l1Block)) : log.blockNumber = l1Block := by
  obtain ⟨blockNumber, logIndex, rollupEvent⟩ := log
  cases reports_of_decode h
  rfl

end RollupLog

/-- The logs of the rollup contract, and the L2 blocks by their hash. -/
structure LogHistory where
  logs : List RollupLog
  ordered : logs.Pairwise RollupLog.Before
  l2Block : B256 → Option Nat

def LogHistory.getLogs (history : LogHistory) (first last : Nat) : List RollupLog :=
  history.logs.filter fun log => first ≤ log.blockNumber && log.blockNumber ≤ last

/-- What the listener sends. -/
inductive Sent where
  | log (log : RollupLog) (event : L1Event)
  | checkpoint (l1Block : Nat)
deriving DecidableEq

def Sent.event : Sent → L1Event
  | log _ event => event
  | checkpoint l1Block => .checkpoint l1Block

/-- How the calls for one page end. -/
structure PageRpc where
  /-- The log query succeeds. -/
  query : Bool
  /-- The log of the page at which a call to L2 fails or the channel is closed. -/
  failsAt : Option Nat
  /-- The text of the error is one of `is_too_many_results`. -/
  tooManyResults : Bool
  /-- A shutdown was requested. -/
  shutdown : Bool

/-- How far a poll came. -/
inductive PollOutcome where
  | complete (latest : Nat)
  /-- Some page failed. -/
  | partly (lastOk : Nat)
deriving DecidableEq

/-- The block that is sent as checkpoint. -/
def PollOutcome.block : PollOutcome → Nat
  | complete latest => latest
  | partly lastOk => lastOk

structure PollResult where
  sent : List Sent
  pageSize : Nat
  /-- Missing if the process ends during the poll. -/
  outcome : Option PollOutcome
deriving DecidableEq

def PollResult.after (sent : List Sent) (result : PollResult) : PollResult :=
  { result with sent := sent ++ result.sent }

def minPage : Nat := 100

def maxPage : Nat := 10000

def initialPage : Nat := 2000

section Poll

variable (history : LogHistory)

/-- The loop over the logs of a page. The flag tells whether all of them were sent. -/
def sendLogs : List RollupLog → List Sent × Bool
  | [] => ([], true)
  | log :: logs =>
      match log.decode history.l2Block with
      | none => ([], false)
      | some event => (.log log event :: (sendLogs logs).1, (sendLogs logs).2)

/-- The logs of a page up to the first that fails, and whether the page is complete. -/
def processPage (first last : Nat) (rpc : PageRpc) : List Sent × Bool :=
  let logs := history.getLogs first last
  if !rpc.query then ([], false)
  else match rpc.failsAt with
    | none => sendLogs history logs
    | some k =>
        let page := sendLogs history (logs.take k)
        (page.1, page.2 && logs.length ≤ k)

/-- The loop of `poll_once` over the pages, with the answers to its calls. -/
def pollPages (latestBlock : Nat) : List PageRpc → (current lastOk pageSize : Nat) → PollResult
  | [], current, _, pageSize =>
      ⟨[], pageSize, if latestBlock < current then some (.complete latestBlock) else none⟩
  | rpc :: rpcs, current, lastOk, pageSize =>
      if latestBlock < current then ⟨[], pageSize, some (.complete latestBlock)⟩
      else
        let pageEnd := min (current + pageSize - 1) latestBlock
        let page := processPage history current pageEnd rpc
        if page.2 then
          (pollPages latestBlock rpcs (pageEnd + 1) pageEnd (min (pageSize + 100) maxPage)).after
            page.1
        else if rpc.tooManyResults && !rpc.shutdown then
          let shrunk := max (pageSize / 2) minPage
          if pageSize = minPage then ⟨page.1, shrunk, some (.partly lastOk)⟩
          else (pollPages latestBlock rpcs current lastOk shrunk).after page.1
        else ⟨page.1, pageSize, some (.partly lastOk)⟩

/-- Poll up to the head less the safe blocks, which may be below the start. -/
def pollOnce (safeBlocks rawLatest : Nat) (rpcs : List PageRpc) (fromBlock pageSize : Nat) :
    PollResult :=
  let latestBlock := rawLatest - safeBlocks
  if latestBlock < fromBlock then ⟨[], pageSize, some (.complete (fromBlock - 1))⟩
  else pollPages history latestBlock rpcs fromBlock (fromBlock - 1) pageSize

end Poll

/-- Where the next poll begins, and all that was sent since the start of the process. -/
structure Listener where
  fromBlock : Nat
  pageSize : Nat
  sent : List Sent

/-- What a poll finds: the head of L1, unless the call fails, and the answers for its
pages. -/
structure Reading where
  head : Option Nat
  rpcs : List PageRpc

namespace Listener

variable (history : LogHistory) (safeBlocks : Nat)

def start (fromBlock : Nat) : Listener := ⟨fromBlock, initialPage, []⟩

def poll (listener : Listener) (reading : Reading) : Listener :=
  match reading.head with
  | none => listener
  | some rawLatest =>
      let result := pollOnce history safeBlocks rawLatest reading.rpcs listener.fromBlock
        listener.pageSize
      let sent := listener.sent ++ result.sent
      match result.outcome with
      | none => { listener with pageSize := result.pageSize, sent := sent }
      | some outcome =>
          ⟨outcome.block + 1, result.pageSize, sent ++ [.checkpoint outcome.block]⟩

def run (fromBlock : Nat) (readings : List Reading) : Listener :=
  readings.foldl (poll history safeBlocks) (start fromBlock)

end Listener

namespace LogHistory

variable (history : LogHistory) (fromBlock : Nat)

/-- The log was sent: an event that reports it is among the messages for it. -/
def Sends (sent : List Sent) (log : RollupLog) : Prop :=
  ∃ event, RollupLog.Reports history.l2Block log.blockNumber log.event event ∧
    .log log event ∈ sent

/-- No log of these blocks makes its page fail. -/
def Readable (toBlock : Nat) : Prop :=
  ∀ log ∈ history.getLogs fromBlock toBlock, (log.decode history.l2Block).isSome

/-- A listener that starts at `fromBlock` delivers the log: it does not go past the block
without it, and it gets there if its calls succeed. -/
structure Delivers (log : RollupLog) : Prop where
  safe : ∀ safeBlocks readings,
    log.blockNumber < (Listener.run history safeBlocks fromBlock readings).fromBlock →
      history.Sends (Listener.run history safeBlocks fromBlock readings).sent log
  live : ∀ safeBlocks, history.Readable fromBlock log.blockNumber →
    ∃ readings, history.Sends (Listener.run history safeBlocks fromBlock readings).sent log

end LogHistory

section Pages

variable {history : LogHistory} {latestBlock current lastOk pageSize : Nat} {log : RollupLog}

theorem LogHistory.Sends.append_left {sent : List Sent} (h : history.Sends sent log)
    (rest : List Sent) : history.Sends (sent ++ rest) log :=
  h.imp fun _ => And.imp_right (List.mem_append_left _)

theorem LogHistory.Sends.append_right {sent : List Sent} (h : history.Sends sent log)
    (before : List Sent) : history.Sends (before ++ sent) log :=
  h.imp fun _ => And.imp_right (List.mem_append_right _)

theorem mem_getLogs {first last : Nat} : log ∈ history.getLogs first last ↔
    log ∈ history.logs ∧ first ≤ log.blockNumber ∧ log.blockNumber ≤ last := by
  simp [LogHistory.getLogs]

theorem sendLogs_sends {logs : List RollupLog} (hok : (sendLogs history logs).2 = true)
    (hlog : log ∈ logs) : history.Sends (sendLogs history logs).1 log := by
  induction logs with
  | nil => cases hlog
  | cons first logs ih =>
      rw [sendLogs] at hok ⊢
      cases hevent : first.decode history.l2Block with
      | none => simp [hevent] at hok
      | some event =>
          simp only [hevent] at hok ⊢
          obtain rfl | hlog := List.mem_cons.mp hlog
          · exact ⟨event, RollupLog.reports_of_decode hevent, .head _⟩
          · exact (ih hok hlog).append_right [.log first event]

theorem sendLogs_ok {logs : List RollupLog}
    (h : ∀ log ∈ logs, (log.decode history.l2Block).isSome) : (sendLogs history logs).2 = true := by
  induction logs with
  | nil => rfl
  | cons log logs ih =>
      obtain ⟨event, hevent⟩ := Option.isSome_iff_exists.mp (h log (.head _))
      rw [sendLogs, hevent]
      exact ih fun log hlog => h log (.tail _ hlog)

/-- A page that succeeds was sent as a whole. -/
theorem processPage_sends {first last : Nat} {rpc : PageRpc}
    (hok : (processPage history first last rpc).2 = true) (hlog : log ∈ history.logs)
    (hfrom : first ≤ log.blockNumber) (hto : log.blockNumber ≤ last) :
    history.Sends (processPage history first last rpc).1 log := by
  have hmem := mem_getLogs.mpr ⟨hlog, hfrom, hto⟩
  simp only [processPage] at hok ⊢
  split at hok
  · cases hok
  · next hquery =>
      rw [if_neg hquery]
      split at hok
      · exact sendLogs_sends hok hmem
      · next k hfails =>
          rw [Bool.and_eq_true, decide_eq_true_eq] at hok
          rw [List.take_of_length_le hok.2] at hok ⊢
          exact sendLogs_sends hok.1 hmem

/-- Blocks up to the outcome of the loop were sent. -/
theorem pollPages_sends {rpcs : List PageRpc} {outcome : PollOutcome} (hlast : lastOk < current)
    (houtcome : (pollPages history latestBlock rpcs current lastOk pageSize).outcome = some outcome)
    (hlog : log ∈ history.logs) (hfrom : current ≤ log.blockNumber)
    (hto : log.blockNumber ≤ outcome.block) :
    history.Sends (pollPages history latestBlock rpcs current lastOk pageSize).sent log := by
  -- an outcome below the current page leaves no log to show
  have hbelow : ∀ block : PollOutcome, block.block < current → some block ≠ some outcome := by
    rintro block hlt heq
    cases heq
    omega
  induction rpcs generalizing current lastOk pageSize with
  | nil =>
      simp only [pollPages, Option.ite_none_right_eq_some] at houtcome
      exact absurd houtcome.2 (hbelow _ houtcome.1)
  | cons rpc rpcs ih =>
      rw [pollPages] at houtcome ⊢
      split at houtcome
      · next hlatest => exact absurd houtcome (hbelow _ hlatest)
      · next hlatest =>
          rw [if_neg hlatest]
          simp only at houtcome ⊢
          split at houtcome
          · next hok =>
              rw [if_pos hok]
              by_cases hpage : log.blockNumber ≤ min (current + pageSize - 1) latestBlock
              · exact (processPage_sends hok hlog hfrom hpage).append_left _
              · refine (ih (Nat.lt_succ_self _) houtcome (by omega) ?_).append_right _
                exact fun block hlt heq => by cases heq; omega
          · next hok =>
              rw [if_neg hok]
              split at houtcome
              · next hlimit =>
                  rw [if_pos hlimit]
                  split at houtcome
                  · exact absurd houtcome (hbelow _ hlast)
                  · next hshrink =>
                      rw [if_neg hshrink]
                      exact (ih hlast houtcome hfrom hbelow).append_right _
              · exact absurd houtcome (hbelow _ hlast)

/-- A page without failures. -/
def PageRpc.ok : PageRpc := ⟨true, none, false, false⟩

/-- If all calls succeed, the loop ends at the last block. -/
theorem pollPages_complete {rounds : Nat} (hrounds : latestBlock < current + rounds)
    (hsize : 0 < pageSize) (hread : history.Readable current latestBlock) :
    (pollPages history latestBlock (List.replicate rounds .ok) current lastOk pageSize).outcome =
      some (.complete latestBlock) := by
  induction rounds generalizing current lastOk pageSize with
  | zero => exact if_pos hrounds
  | succ rounds ih =>
      rw [List.replicate_succ, pollPages]
      split
      · rfl
      · next hlatest =>
          have hpage : (processPage history current (min (current + pageSize - 1) latestBlock)
              .ok).2 = true := by
            refine sendLogs_ok fun log hlog => hread log ?_
            rw [mem_getLogs] at hlog ⊢
            exact ⟨hlog.1, hlog.2.1, by omega⟩
          simp only [hpage, if_true]
          refine ih (by omega) (by simp [maxPage]) fun log hlog => hread log ?_
          rw [mem_getLogs] at hlog ⊢
          exact ⟨hlog.1, by omega, hlog.2.2⟩

end Pages

namespace Listener

variable {history : LogHistory} {safeBlocks first : Nat}

/-- No log between the first block and the next one is missing. -/
def Caught (history : LogHistory) (first : Nat) (listener : Listener) : Prop :=
  0 < listener.fromBlock ∧ ∀ log ∈ history.logs, first ≤ log.blockNumber →
    log.blockNumber < listener.fromBlock → history.Sends listener.sent log

theorem Caught.poll {listener : Listener} (h : Caught history first listener) (reading : Reading) :
    Caught history first (listener.poll history safeBlocks reading) := by
  obtain ⟨hpositive, hcaught⟩ := h
  simp only [Listener.poll]
  split
  · exact ⟨hpositive, hcaught⟩
  · next rawLatest _ =>
      split
      · exact ⟨hpositive, fun log hlog hfirst hlt => (hcaught log hlog hfirst hlt).append_left _⟩
      · next outcome houtcome =>
          refine ⟨Nat.succ_pos _, fun log hlog hfirst hlt => LogHistory.Sends.append_left ?_ _⟩
          by_cases hbefore : log.blockNumber < listener.fromBlock
          · exact (hcaught log hlog hfirst hbefore).append_left _
          · refine LogHistory.Sends.append_right ?_ _
            simp only [pollOnce] at houtcome ⊢
            split at houtcome
            · cases houtcome
              exact absurd hlt (by simp only [PollOutcome.block]; omega)
            · next hlatest =>
                rw [if_neg hlatest]
                exact pollPages_sends (by omega) houtcome hlog (by omega) (Nat.lt_succ_iff.mp hlt)

end Listener

section Checkpoints

/-- The checkpoints that were sent, in order. -/
def checkpoints (sent : List Sent) : List Nat :=
  sent.filterMap fun
    | .checkpoint l1Block => some l1Block
    | .log _ _ => none

variable {history : LogHistory} {latestBlock current lastOk pageSize : Nat}

@[simp] theorem checkpoints_append (first second : List Sent) :
    checkpoints (first ++ second) = checkpoints first ++ checkpoints second :=
  List.filterMap_append

@[simp] theorem checkpoints_sendLogs (logs : List RollupLog) :
    checkpoints (sendLogs history logs).1 = [] := by
  induction logs with
  | nil => rfl
  | cons log logs ih =>
      rw [sendLogs]
      split
      · rfl
      · exact ih

@[simp] theorem checkpoints_processPage (first last : Nat) (rpc : PageRpc) :
    checkpoints (processPage history first last rpc).1 = [] := by
  simp only [processPage]
  split
  · rfl
  · split <;> exact checkpoints_sendLogs _

/-- What a page loop does besides sending logs: the page size stays in range, and the outcome
is not below the last page that succeeded. -/
structure PollResult.Sane (lastOk : Nat) (result : PollResult) : Prop where
  logs : checkpoints result.sent = []
  pageSize : minPage ≤ result.pageSize
  outcome : ∀ outcome, result.outcome = some outcome → lastOk ≤ outcome.block

theorem PollResult.Sane.after {lastOk lastOk' : Nat} {result : PollResult} {sent : List Sent}
    (h : result.Sane lastOk') (hle : lastOk ≤ lastOk') (hsent : checkpoints sent = []) :
    (result.after sent).Sane lastOk := by
  refine ⟨?_, h.pageSize, fun outcome houtcome => hle.trans (h.outcome outcome houtcome)⟩
  rw [PollResult.after, checkpoints_append, hsent, h.logs]
  rfl

theorem pollPages_sane {rpcs : List PageRpc} (hlast : lastOk ≤ latestBlock)
    (hcurrent : lastOk < current) (hsize : minPage ≤ pageSize) :
    (pollPages history latestBlock rpcs current lastOk pageSize).Sane lastOk := by
  have hcomplete : ∀ outcome, some (PollOutcome.complete latestBlock) = some outcome →
      lastOk ≤ outcome.block := by
    rintro _ ⟨⟩
    exact hlast
  have hpartly : ∀ outcome, some (PollOutcome.partly lastOk) = some outcome →
      lastOk ≤ outcome.block := by
    rintro _ ⟨⟩
    exact le_rfl
  induction rpcs generalizing current lastOk pageSize with
  | nil =>
      refine ⟨rfl, hsize, fun outcome houtcome => ?_⟩
      simp only [pollPages, Option.ite_none_right_eq_some] at houtcome
      exact hcomplete outcome houtcome.2
  | cons rpc rpcs ih =>
      rw [pollPages]
      split
      · exact ⟨rfl, hsize, hcomplete⟩
      · next hlatest =>
          have hpositive : 0 < minPage := by decide
          simp only
          split
          · refine (ih (min_le_right ..) (Nat.lt_succ_self _) ?_ ?_ ?_).after ?_
              (checkpoints_processPage ..)
            · exact le_min (by omega) (by decide)
            · rintro _ ⟨⟩
              exact min_le_right ..
            · rintro _ ⟨⟩
              exact le_rfl
            · omega
          · split
            · split
              · exact ⟨checkpoints_processPage .., le_max_right .., hpartly⟩
              · exact (ih hlast hcurrent (le_max_right ..) hcomplete hpartly).after le_rfl
                  (checkpoints_processPage ..)
            · exact ⟨checkpoints_processPage .., hsize, hpartly⟩

/-- The page loop ends, whatever its calls answer. -/
theorem pollPages_ends (hsize : minPage ≤ pageSize) (rpcs : Nat → PageRpc) :
    ∃ rounds, (pollPages history latestBlock ((List.range rounds).map rpcs) current lastOk
      pageSize).outcome.isSome := by
  -- first the blocks that are left, then the page size
  induction hleft : latestBlock + 1 - current using Nat.strong_induction_on
    generalizing current lastOk pageSize rpcs with
  | _ left ihleft =>
      induction pageSize using Nat.strong_induction_on generalizing rpcs with
      | _ pageSize ihsize =>
          by_cases hlatest : latestBlock < current
          · exact ⟨0, by simp [pollPages, hlatest]⟩
          · let pageEnd := min (current + pageSize - 1) latestBlock
            have hpositive : 0 < minPage := by decide
            have hstep : ∀ rounds, pollPages history latestBlock
                ((List.range (rounds + 1)).map rpcs)
                current lastOk pageSize = pollPages history latestBlock
                  (rpcs 0 :: (List.range rounds).map fun k => rpcs (k + 1)) current lastOk
                  pageSize := by
              intro rounds
              rw [List.range_succ_eq_map, List.map_cons, List.map_map]
              rfl
            cases hpage : (processPage history current pageEnd (rpcs 0)).2 with
            | true =>
                have hgrown : minPage ≤ min (pageSize + 100) maxPage :=
                  le_min (by omega) (by decide)
                obtain ⟨rounds, hrounds⟩ := @ihleft (latestBlock + 1 - (pageEnd + 1)) (by omega)
                  (pageEnd + 1) pageEnd _ hgrown (fun k => rpcs (k + 1)) rfl
                refine ⟨rounds + 1, ?_⟩
                rw [hstep, pollPages, if_neg hlatest]
                simp only [pageEnd] at hpage hrounds
                simp only [hpage, if_true]
                exact hrounds
            | false =>
                simp only [pageEnd] at hpage
                by_cases hlimit : (rpcs 0).tooManyResults && !(rpcs 0).shutdown
                · by_cases hmin : pageSize = minPage
                  · refine ⟨1, ?_⟩
                    rw [hstep, pollPages, if_neg hlatest]
                    simp only [hpage, hlimit, Bool.false_eq_true, if_true, if_false]
                    rw [if_pos hmin]
                    rfl
                  · have hshrunk : max (pageSize / 2) minPage < pageSize := by
                      have : minPage < pageSize := by omega
                      omega
                    obtain ⟨rounds, hrounds⟩ := ihsize _ hshrunk (le_max_right ..)
                      fun k => rpcs (k + 1)
                    refine ⟨rounds + 1, ?_⟩
                    rw [hstep, pollPages, if_neg hlatest]
                    simp only [hpage, hlimit, Bool.false_eq_true, if_true, if_false]
                    rw [if_neg hmin]
                    exact hrounds
                · refine ⟨1, ?_⟩
                  rw [hstep, pollPages, if_neg hlatest]
                  simp [hpage, hlimit]

end Checkpoints

namespace Listener

variable {history : LogHistory} {safeBlocks first : Nat} {listener : Listener}

/-- What holds between two polls. -/
structure Steady (history : LogHistory) (first : Nat) (listener : Listener) : Prop where
  caught : Caught history first listener
  pageSize : minPage ≤ listener.pageSize
  below : ∀ n ∈ checkpoints listener.sent, n < listener.fromBlock
  ordered : (checkpoints listener.sent).Pairwise (· ≤ ·)
  resumes : ∀ n, (checkpoints listener.sent).getLast? = some n → listener.fromBlock = n + 1
  covered : ∀ (k n : Nat), listener.sent[k]? = some (.checkpoint n) → ∀ log ∈ history.logs,
    first ≤ log.blockNumber → log.blockNumber ≤ n → history.Sends (listener.sent.take k) log

theorem pollOnce_sane (rawLatest : Nat) (rpcs : List PageRpc) {fromBlock pageSize : Nat}
    (hfrom : 0 < fromBlock) (hsize : minPage ≤ pageSize) :
    (pollOnce history safeBlocks rawLatest rpcs fromBlock pageSize).Sane (fromBlock - 1) := by
  rw [pollOnce]
  split
  · refine ⟨rfl, hsize, ?_⟩
    rintro _ ⟨⟩
    exact le_rfl
  · exact pollPages_sane (by omega) (by omega) hsize

/-- Logs that follow the last checkpoint change nothing. -/
theorem Steady.send (h : Steady history first listener) {logs : List Sent}
    (hlogs : checkpoints logs = []) {pageSize : Nat} (hsize : minPage ≤ pageSize) :
    Steady history first ⟨listener.fromBlock, pageSize, listener.sent ++ logs⟩ := by
  have hsame : checkpoints (listener.sent ++ logs) = checkpoints listener.sent := by
    rw [checkpoints_append, hlogs, List.append_nil]
  refine ⟨⟨h.caught.1, fun log hlog hfirst hlt => ?_⟩, hsize, ?_, ?_, ?_, ?_⟩
  · exact (h.caught.2 log hlog hfirst hlt).append_left _
  · rw [hsame]
    exact h.below
  · rw [hsame]
    exact h.ordered
  · rw [hsame]
    exact h.resumes
  · intro k n hk log hlog hfirst hle
    obtain hlt | hge := Nat.lt_or_ge k listener.sent.length
    · rw [List.getElem?_append_left hlt] at hk
      rw [List.take_append_of_le_length hlt.le]
      exact h.covered k n hk log hlog hfirst hle
    · rw [List.getElem?_append_right hge] at hk
      have hmem : n ∈ checkpoints logs :=
        List.mem_filterMap.mpr ⟨_, List.mem_of_getElem? hk, rfl⟩
      rw [hlogs] at hmem
      cases hmem

/-- A checkpoint is sent when all logs up to it were. -/
theorem Steady.checkpoint {l1Block : Nat} (h : Steady history first listener)
    (hge : listener.fromBlock ≤ l1Block + 1)
    (hcaught : Caught history first
      ⟨l1Block + 1, listener.pageSize, listener.sent ++ [.checkpoint l1Block]⟩) :
    Steady history first
      ⟨l1Block + 1, listener.pageSize, listener.sent ++ [.checkpoint l1Block]⟩ := by
  have hsame : checkpoints (listener.sent ++ [.checkpoint l1Block]) =
      checkpoints listener.sent ++ [l1Block] := checkpoints_append ..
  refine ⟨hcaught, h.pageSize, ?_, ?_, ?_, ?_⟩
  · intro n hn
    rw [hsame, List.mem_append, List.mem_singleton] at hn
    obtain hn | rfl := hn
    · exact (h.below n hn).trans_le hge
    · exact Nat.lt_succ_self n
  · rw [hsame, List.pairwise_append]
    refine ⟨h.ordered, List.pairwise_singleton .., fun n hn m hm => ?_⟩
    have hlt := h.below n hn
    rw [List.mem_singleton.mp hm]
    omega
  · intro n hn
    rw [hsame, List.getLast?_concat, Option.some.injEq] at hn
    rw [hn]
  · intro k n hk log hlog hfirst hle
    obtain hlt | hlen := Nat.lt_or_ge k listener.sent.length
    · rw [List.getElem?_append_left hlt] at hk
      rw [List.take_append_of_le_length hlt.le]
      exact h.covered k n hk log hlog hfirst hle
    · obtain ⟨hlast, _⟩ := List.getElem?_eq_some_iff.mp hk
      have hk' : k = listener.sent.length := by
        simp only [List.length_append, List.length_singleton] at hlast
        omega
      subst hk'
      simp only [List.getElem?_concat_length, Option.some.injEq, Sent.checkpoint.injEq] at hk
      subst hk
      obtain ⟨event, hreports, hmem⟩ := hcaught.2 log hlog hfirst (Nat.lt_succ_of_le hle)
      rw [List.mem_append, List.mem_singleton] at hmem
      rw [List.take_left]
      exact ⟨event, hreports, hmem.resolve_right nofun⟩

theorem Steady.poll (h : Steady history first listener) (reading : Reading) :
    Steady history first (listener.poll history safeBlocks reading) := by
  have hcaught : Caught history first (listener.poll history safeBlocks reading) :=
    h.caught.poll reading
  simp only [Listener.poll] at hcaught ⊢
  split at hcaught
  · exact h
  · next rawLatest _ =>
      have hsane := @pollOnce_sane history safeBlocks rawLatest reading.rpcs _ _ h.caught.1
          h.pageSize
      have hsent := h.send hsane.logs hsane.pageSize
      split at hcaught
      · exact hsent
      · next outcome houtcome =>
          have hblock := hsane.outcome outcome houtcome
          exact hsent.checkpoint (by simp only; omega) hcaught

theorem run_steady (hfirst : 0 < first) (readings : List Reading) :
    Steady history first (run history safeBlocks first readings) := by
  have hstart : Steady history first (start first) := by
    refine ⟨⟨hfirst, fun log _ hle hlt => absurd hlt hle.not_gt⟩, ?_, nofun, .nil, nofun, ?_⟩
    · exact (by decide : minPage ≤ initialPage)
    · simp [start]
  have hrun : ∀ listener, Steady history first listener →
      Steady history first (readings.foldl (Listener.poll history safeBlocks) listener) := by
    induction readings with
    | nil => exact fun _ h => h
    | cons reading readings ih => exact fun listener h => ih _ (h.poll reading)
  exact hrun _ hstart

end Listener

/-- The listener loses no log. Every poll ends; when a checkpoint is sent, all logs up to it
were sent before; checkpoints do not decrease, and the next poll resumes after the last. -/
theorem listener_loses_no_log (history : LogHistory) (safeBlocks : Nat) {first : Nat}
    (hfirst : 0 < first) (readings : List Reading) :
    let listener := Listener.run history safeBlocks first readings
    (∀ rawLatest (rpcs : Nat → PageRpc), ∃ rounds, (pollOnce history safeBlocks rawLatest
        ((List.range rounds).map rpcs) listener.fromBlock listener.pageSize).outcome.isSome) ∧
      (∀ (k n : Nat), listener.sent[k]? = some (.checkpoint n) → ∀ log ∈ history.logs,
        first ≤ log.blockNumber → log.blockNumber ≤ n → history.Sends (listener.sent.take k) log) ∧
      (checkpoints listener.sent).Pairwise (· ≤ ·) ∧
      ∀ n, (checkpoints listener.sent).getLast? = some n → listener.fromBlock = n + 1 := by
  intro listener
  have hsteady : Listener.Steady history first listener := Listener.run_steady hfirst readings
  refine ⟨fun rawLatest rpcs => ?_, hsteady.covered, hsteady.ordered, hsteady.resumes⟩
  by_cases hlatest : rawLatest - safeBlocks < listener.fromBlock
  · exact ⟨0, by simp [pollOnce, hlatest]⟩
  · obtain ⟨rounds, hrounds⟩ := @pollPages_ends history (rawLatest - safeBlocks)
      listener.fromBlock (listener.fromBlock - 1) _ hsteady.pageSize rpcs
    refine ⟨rounds, ?_⟩
    rw [pollOnce, if_neg hlatest]
    exact hrounds

section Sample

private def numbered (hash : B256) : Option Nat :=
  if hash = .ofNat 4 then some 4 else if hash = .ofNat 6 then some 6 else none

private def twoLogs : LogHistory :=
  ⟨[⟨3, 0, .batchCommitted 1 (.ofNat 4) (.ofNat 6)⟩, ⟨5, 0, .batchSubmitted 1⟩],
    by simp [RollupLog.Before], numbered⟩

/-- A page is too large at first, then the head moves back, and then a page fails. -/
theorem listener_loses_no_log_sample :
    let listener := Listener.run twoLogs 0 1 [⟨some 4, [⟨false, none, true, false⟩, .ok]⟩,
      ⟨some 2, []⟩, ⟨some 9, [⟨true, some 0, false, false⟩]⟩]
    checkpoints listener.sent = [4, 4, 4] ∧ listener.fromBlock = 5 ∧
      twoLogs.Sends (listener.sent.take 1) ⟨3, 0, .batchCommitted 1 (.ofNat 4) (.ofNat 6)⟩ := by
  intro listener
  obtain ⟨_, hcovered, _, hresumes⟩ := listener_loses_no_log twoLogs 0 (by decide : 0 < 1)
    [⟨some 4, [⟨false, none, true, false⟩, .ok]⟩, ⟨some 2, []⟩,
      ⟨some 9, [⟨true, some 0, false, false⟩]⟩]
  have hcheckpoints : checkpoints listener.sent = [4, 4, 4] := by decide +kernel
  have hsecond : listener.sent[1]? = some (.checkpoint 4) := by decide +kernel
  refine ⟨hcheckpoints, hresumes 4 ?_, hcovered 1 4 hsecond _ ?_ ?_ ?_⟩
  · rw [hcheckpoints]
    rfl
  all_goals decide

end Sample

/-- A log is delivered if and only if the listener does not start above it. -/
theorem LogHistory.delivers_iff {history : LogHistory} {first : Nat} {log : RollupLog}
    (hfirst : 0 < first) (hlog : log ∈ history.logs) :
    history.Delivers first log ↔ first ≤ log.blockNumber := by
  constructor
  · intro h
    by_contra hlt
    obtain ⟨_, _, hmem⟩ := h.safe 0 [] (Nat.lt_of_not_le hlt)
    cases hmem
  · intro hle
    refine ⟨fun safeBlocks readings hlt => ?_, fun safeBlocks hread => ?_⟩
    · exact (Listener.run_steady hfirst readings).caught.2 log hlog hle hlt
    · -- one poll whose pages all succeed
      refine ⟨[⟨some (log.blockNumber + safeBlocks), .replicate (log.blockNumber + 1) .ok⟩], ?_⟩
      refine (Listener.run_steady hfirst _).caught.2 log hlog hle ?_
      have houtcome : (pollOnce history safeBlocks (log.blockNumber + safeBlocks)
          (.replicate (log.blockNumber + 1) .ok) first initialPage).outcome =
            some (.complete log.blockNumber) := by
        rw [pollOnce, Nat.add_sub_cancel, if_neg (by omega)]
        exact pollPages_complete (by omega) (by decide) hread
      simp [Listener.run, Listener.start, Listener.poll, houtcome, PollOutcome.block]

section Revert

variable (config : Config)

/-- The database after `main` has prepared the start. -/
def Db.restarted (db : Db) : Db := db.applyAll (db.startupWrites config)

/-- The startup after a revert keeps the L1 checkpoint that the handler has stored. -/
theorem Db.restarted_wipeForRevert (i l1Block : Nat) (db : Db) :
    ((db.wipeForRevert i l1Block).restarted config).l1Checkpoint = some l1Block := by
  have hresolve : (db.wipeForRevert i l1Block).resolveWrites config =
      [.saveCheckpoint ((config.resolve i).1 - 1), .saveLastBatchEnd ((config.resolve i).1 - 1),
        .clearStartBatchId] := rfl
  have hnormalize : ((db.wipeForRevert i l1Block).applyAll
      ((db.wipeForRevert i l1Block).resolveWrites config)).normalizeWrites = [] := by
    rw [hresolve]
    exact normalizeWrites_of_empty rfl
  rw [restarted, startupWrites, hnormalize, hresolve]
  rfl

/-- The listener starts two blocks after the revert. -/
theorem listenerFromBlock_reverted (p : Process) (now i l1Block : Nat) :
    ((p.turn now (.l1Event (.batchReverted i l1Block))).db.restarted config).listenerFromBlock
      config = max (l1Block + 2) config.l1DeployBlock := by
  have hdb : (p.turn now (.l1Event (.batchReverted i l1Block))).db =
      p.db.wipeForRevert i (l1Block + 1) := by
    rw [Process.turn_db]
    rfl
  rw [hdb, Db.listenerFromBlock, Db.restarted_wipeForRevert]

end Revert

/-- After a revert is handled and the process restarted, all later logs are delivered if and
only if none of them is in the block of the revert or in the block after it. -/
theorem later_logs_delivered_iff {history : LogHistory} {config : Config} {reverted : RollupLog}
    {i l1Block : Nat} (hevent : reverted.decode history.l2Block = some (.batchReverted i l1Block))
    (hdeploy : config.l1DeployBlock ≤ reverted.blockNumber) (p : Process) (now : Nat) :
    (∀ log ∈ history.logs, reverted.Before log → history.Delivers
        (((p.turn now (.l1Event (.batchReverted i l1Block))).db.restarted config).listenerFromBlock
          config) log) ↔
      ∀ log ∈ history.logs, reverted.Before log →
        log.blockNumber ≠ reverted.blockNumber ∧ log.blockNumber ≠ reverted.blockNumber + 1 := by
  obtain rfl := reverted.blockNumber_of_decode hevent
  rw [listenerFromBlock_reverted, max_eq_left (by omega)]
  refine forall₂_congr fun log hlog => forall_congr' fun hbefore => ?_
  rw [LogHistory.delivers_iff (Nat.succ_pos _) hlog]
  have hle : reverted.blockNumber ≤ log.blockNumber := hbefore.elim Nat.le_of_lt fun h => h.1.le
  omega

section Sample

/-- Batch 3 is reverted in block 10, and it is committed and submitted again from the given
block on. -/
private def recommitted (blockNumber : Nat) (h : 10 ≤ blockNumber) : LogHistory where
  logs := [⟨10, 0, .batchReverted 3⟩, ⟨blockNumber, 1, .batchCommitted 3 (.ofNat 4) (.ofNat 6)⟩,
    ⟨blockNumber + 1, 0, .batchSubmitted 3⟩]
  ordered := by
    simp [RollupLog.Before]
    omega
  l2Block := numbered

private def deployedAtOne : Config := ⟨none, 1, fun _ => (5, 2)⟩

/-- The listener of the process that starts after the revert. -/
private def listenerBlock : Nat :=
  (((Process.start .empty .noOp).turn 0 (.l1Event (.batchReverted 3 10))).db.restarted
    deployedAtOne).listenerFromBlock deployedAtOne

theorem later_logs_delivered_sample :
    let history := recommitted 12 (by decide)
    (∀ log ∈ history.logs.tail, history.Delivers listenerBlock log) ∧
      (Listener.run history 0 listenerBlock [⟨some 20, [.ok]⟩]).sent.map Sent.event =
        [.batchCommitted 3 5 6, .batchSubmitted 3, .checkpoint 20] := by
  intro history
  refine ⟨fun log hlog => ?_, by decide +kernel⟩
  have hbefore : (⟨10, 0, .batchReverted 3⟩ : RollupLog).Before log :=
    (List.pairwise_cons.mp history.ordered).1 log hlog
  refine (later_logs_delivered_iff (by decide) (by decide)
    (Process.start .empty .noOp) 0).mpr ?_ log
    (List.mem_of_mem_tail hlog) hbefore
  decide +kernel

/-- The batch is committed again in the block of the revert, and submitted in the block
after it. The listener starts at block 12 and goes on without the two logs. -/
theorem later_logs_skipped :
    let history := recommitted 10 (by decide)
    let reverted : RollupLog := ⟨10, 0, .batchReverted 3⟩
    let listener := Listener.run history 0 listenerBlock [⟨some 20, [.ok]⟩]
    reverted.decode history.l2Block = some (.batchReverted 3 10) ∧
      (∀ log ∈ history.logs.tail, reverted.Before log ∧ log.blockNumber < listener.fromBlock) ∧
      listenerBlock = 12 ∧ listener.sent = [.checkpoint 20] := by
  decide +kernel

end Sample

end FluentStf.Orchestrator
