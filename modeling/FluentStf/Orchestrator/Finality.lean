import FluentStf.Orchestrator.Turn

/-! The finalization check and the L1 chain it asks. A check runs beside the main loop: it
reads the number of the finalized block and then one receipt after the other, while the
chain goes on. -/
namespace FluentStf.Orchestrator

/-- A receipt as the L1 node answers it. -/
structure Receipt where
  block : Nat
  success : Bool
  gasUsed : Nat
deriving DecidableEq

/-- The L1 chain as its node reports it. -/
structure L1 where
  finalized : Nat
  receipt : B256 → Option Receipt

/-- Only the blocks up to the finalized one are irreversible. -/
structure L1.Extends (l1 l1' : L1) : Prop where
  finalized : l1.finalized ≤ l1'.finalized
  receipt : ∀ {txHash receipt}, l1.receipt txHash = some receipt →
    receipt.block ≤ l1.finalized → l1'.receipt txHash = some receipt

/-- The products saturate. -/
def classifyRevert (gasUsed gasLimit : Nat) : RevertKind :=
  if gasLimit = 0 then .logic
  else if min (gasUsed * 100) (2 ^ 64 - 1) ≥ min (gasLimit * 95) (2 ^ 64 - 1) then .oog
  else .logic

/-- `none` is an answer that failed. An unknown gas limit counts as 0. -/
def receiptCheck (answer : Option (Option Receipt)) (gasLimit : Option Nat) : ReceiptCheck :=
  match answer with
  | none => .checkFailed
  | some none => .missing
  | some (some receipt) =>
      if receipt.success then .found
      else .reverted (classifyRevert receipt.gasUsed (gasLimit.getD 0))

theorem receiptCheck_found {answer : Option (Option Receipt)} {gasLimit : Option Nat}
    (h : receiptCheck answer gasLimit = .found) :
    ∃ receipt, answer = some (some receipt) ∧ receipt.success = true := by
  unfold receiptCheck at h
  split at h
  · cases h
  · cases h
  · next receipt =>
      split at h
      · next hsuccess => exact ⟨receipt, rfl, hsuccess⟩
      · cases h

/-- `check_finalized_batches_query` between two answers of the node. -/
inductive Check where
  | asked (snapshot : List (Nat × B256 × Nat))
  | reading (snapshot : List (Nat × B256 × Nat)) (finalizedBlock : Nat)
      (candidates : List (Nat × B256)) (observations : List (Nat × B256 × ReceiptCheck))
  /-- The result with the number of the finalized block, if it was reported. -/
  | answered (finalizedBlock : Option Nat) (done : FinalizationDone)
deriving DecidableEq

namespace Check

def onFinalizedBlock (answer : Option Nat) : Check → Option Check
  | asked snapshot => match answer with
    | none => some (answered none .noOp)
    | some finalizedBlock =>
        let candidates := (snapshot.filter fun row => row.2.2 ≤ finalizedBlock).map
          fun row => (row.1, row.2.1)
        if candidates.isEmpty then some (answered (some finalizedBlock) .noOp)
        else some (reading snapshot finalizedBlock candidates [])
  | _ => none

/-- One round of the loop over the candidates. -/
def onReceipt (receipt : B256 → Option (Option Receipt)) (gasLimit : Option Nat) :
    Check → Option Check
  | reading snapshot finalizedBlock ((batchIndex, txHash) :: candidates) observations =>
      let observations :=
        observations ++ [(batchIndex, txHash, receiptCheck (receipt txHash) gasLimit)]
      if candidates.isEmpty then some (answered (some finalizedBlock) (.observed observations))
      else some (reading snapshot finalizedBlock candidates observations)
  | _ => none

/-- The task panicked. -/
def onFailure : Check → Option Check
  | answered _ _ => none
  | _ => some (answered none .taskFailed)

end Check

/-- The process waits for the first check before its loop starts. -/
inductive Main where
  | starting (db : Db)
  | running (process : Process)

namespace Main

def accumulator : Main → BatchAccumulator
  | starting db => (BatchAccumulator.withDb db).1
  | running process => process.state.accumulator

def stopped : Main → Bool
  | starting _ => false
  | running process => process.state.shutdown

def finalizationDone (now : Nat) (done : FinalizationDone) : Main → Main
  | starting db => running (Process.start db done)
  | running process => running (process.turn now (.finalizationDone done))

end Main

/-- The orchestrator with the L1 chain and the checks in flight. -/
structure Node where
  l1 : L1
  main : Main
  checks : List Check

/-- The steps of the process and of the L1 chain, in any order. -/
inductive NodeEvent where
  | chain (l1 : L1)
  | message (now : Nat) (message : Message)
  /-- Check `k` reads the number of the finalized block. -/
  | finalizedBlock (k : Nat) (available : Bool)
  | receipt (k : Nat) (available : Bool) (gasLimit : Option Nat)
  | taskFailed (k : Nat)
  /-- The loop takes the result of check `k`. -/
  | deliver (now k : Nat)

def Message.isFinalizationDone : Message → Bool
  | finalizationDone _ => true
  | _ => false

/-- The snapshots of the checks among new tasks. -/
def snapshots (tasks : List Task) : List (List (Nat × B256 × Nat)) :=
  tasks.filterMap fun
    | .checkFinalized snapshot => some snapshot
    | _ => none

namespace Node

def start (l1 : L1) (db : Db) : Node :=
  let acc := (BatchAccumulator.withDb db).1
  if acc.hasDispatched then ⟨l1, .starting db, [.asked acc.dispatchedSnapshot]⟩
  else ⟨l1, .running (Process.start db .noOp), []⟩

def setCheck (s : Node) (k : Nat) (check : Check) : Node :=
  { s with checks := s.checks.set k check }

/-- One step, if it is possible. A finalization check is answered by its own events only. -/
def step (s : Node) : NodeEvent → Option Node
  | .chain l1 => some { s with l1 }
  | .message now message => match s.main with
    | .starting _ => none
    | .running process =>
        if s.main.stopped || message.isFinalizationDone then none
        else
          let process := process.turn now message
          some { s with
            main := .running process
            checks := s.checks ++ (snapshots process.state.spawned).map .asked }
  | .finalizedBlock k available =>
      (s.checks[k]?.bind (·.onFinalizedBlock
        (if available then some s.l1.finalized else none))).map (s.setCheck k)
  | .receipt k available gasLimit =>
      (s.checks[k]?.bind (·.onReceipt
        (fun txHash => if available then some (s.l1.receipt txHash) else none) gasLimit)).map
        (s.setCheck k)
  | .taskFailed k => (s.checks[k]?.bind Check.onFailure).map (s.setCheck k)
  | .deliver now k => match s.checks[k]? with
    | some (.answered _ done) =>
        if s.main.stopped then none
        else some { s with
          main := s.main.finalizationDone now done
          checks := s.checks.eraseIdx k }
    | _ => none

end Node

section Spawned

namespace OrchestratorState

@[simp] theorem snapshots_append (first second : List Task) :
    snapshots (first ++ second) = snapshots first ++ snapshots second := by
  simp [snapshots]

variable (s : OrchestratorState) (now : Nat)

@[simp] theorem snapshots_trySignNextBatch :
    snapshots s.trySignNextBatch.spawned = snapshots s.spawned := by
  obtain ⟨_, tasks, h, htasks⟩ := s.trySignNextBatch_eq
  have hnone : snapshots tasks = [] := by
    rw [snapshots, List.filterMap_eq_nil_iff]
    intro task htask
    obtain ⟨_, _, _, _, rfl⟩ := htasks task htask
    rfl
  rw [h, snapshots_append, hnone, List.append_nil]

@[simp] theorem snapshots_tryDispatchNextBatch :
    snapshots (s.tryDispatchNextBatch now).spawned = snapshots s.spawned := by
  obtain h | ⟨_, _, _, _, _, h⟩ := s.tryDispatchNextBatch_cases now
  · rw [h]
  · rw [h, snapshots_append]
    exact List.append_nil _

/-- Only the ticker starts a check, with the rows of that moment. -/
theorem snapshots_handle (message : Message) :
    snapshots (s.handle now message).spawned = snapshots s.spawned ∨
      (message = .finalizationTick ∧ snapshots (s.handle now message).spawned =
        snapshots s.spawned ++ [s.accumulator.dispatchedSnapshot]) := by
  cases message with
  | finalizationTick =>
      simp only [handle, tryStartFinalization]
      split
      · exact .inl rfl
      · split
        · exact .inl rfl
        · exact .inr ⟨trivial, snapshots_append _ _⟩
  | finalizationDone done =>
      refine .inl ?_
      simp only [handle, onFinalizationDone_eq, followUp]
      have hspawned : ({ s with finalizationInFlight := false }.applyFinalizationChanges
          done).1.spawned = s.spawned := by
        cases done with
        | noOp | taskFailed => rfl
        | observed observations => exact (applyObservations_gate _ observations).2.1
      split <;> split <;> simp [applyDispatchBackoff, hspawned]
  | blockResult result =>
      refine .inl ?_
      simp only [handle, onBlockResult_eq]
      split
      · rfl
      · simp [accept, update, persist]
  | l1Event event =>
      refine .inl ?_
      cases event <;> simp [handle, onL1Event, update, persist, clearDispatchBackoff]
  | signDone i outcome =>
      refine .inl ?_
      cases outcome with
      | signed response =>
          simp only [handle, onSignDone]
          split <;> simp [update]
      | invalidSignatures => simp [handle, onSignDone, update, spawn, snapshots, List.filterMap_map]
      | taskFailed => rfl
  | dispatchDone i outcome =>
      refine .inl ?_
      cases outcome with
      | reverted tx kind =>
          cases kind <;> simp [handle, onDispatchDone, update, applyDispatchBackoff]
      | submitted | failed | alreadyPreconfirmed | taskFailed =>
          simp [handle, onDispatchDone, update, applyDispatchBackoff, clearDispatchBackoff]
  | rbfBump i event =>
      cases event <;> exact .inl rfl
  | keyCheckDone addr registered =>
      refine .inl ?_
      cases registered with
      | true => simp [handle, onKeyCheckDone]
      | false => simp [handle, onKeyCheckDone, spawn, snapshots]

end OrchestratorState

end Spawned

section Rows

variable {preconfirms : B256 → Nat → Prop} {acc : BatchAccumulator} {i : Nat}

/-- Every row names a `preconfirmBatch` transaction for its batch. -/
def Vouched (preconfirms : B256 → Nat → Prop) : Std.ExtTreeMap Nat DispatchedBatch → Prop :=
  All fun i row => preconfirms row.txHash i

/-- The message names a transaction only for the batch that it preconfirms. -/
def Message.Truthful (preconfirms : B256 → Nat → Prop) : Message → Prop
  | l1Event (.batchPreconfirmed i txHash _) | dispatchDone i (.alreadyPreconfirmed txHash _)
  | rbfBump i (.initialBroadcast txHash _ _ _) | rbfBump i (.bumped txHash _ _) =>
      preconfirms txHash i
  | _ => True

/-- The transaction that an operation writes into a row. -/
def Operation.txHash? : Operation → Option (B256 × Nat)
  | markDispatched i txHash _ _ _ _ | markDispatchedExternal i txHash _
  | recordRbfBump i txHash _ _ => some (txHash, i)
  | _ => none

theorem Vouched.apply_operation {op : Operation} (h : Vouched preconfirms acc.dispatched)
    (hop : ∀ txHash i, op.txHash? = some (txHash, i) → preconfirms txHash i) :
    Vouched preconfirms (op.apply acc).1.dispatched := by
  cases op with
  | insertResponse | purgeResponses | signed | deleteBatchSignature => exact h
  | setBatch | markBatchSubmitted =>
      simp only [Operation.apply, BatchAccumulator.setBatch, BatchAccumulator.markBatchSubmitted]
      split <;> exact h
  | markDispatched | markDispatchedExternal =>
      simp only [Operation.apply, BatchAccumulator.markDispatched,
        BatchAccumulator.markDispatchedExternal]
      split
      · exact h
      · exact All.insert h (hop _ _ rfl)
  | recordRbfBump i tx =>
      intro j row hrow
      simp only [Operation.apply, BatchAccumulator.recordRbfBump,
        Std.ExtTreeMap.getElem?_modify] at hrow
      split at hrow
      · next hij =>
          cases Std.LawfulEqCmp.eq_of_compare hij
          obtain ⟨old, _, rfl⟩ := Option.map_eq_some_iff.mp hrow
          exact hop tx i rfl
      · exact h j row hrow
  | recordDispatchedL1Block => exact All.modify h _ fun _ _ hrow => hrow
  | finalizeDispatched =>
      simp only [Operation.apply, BatchAccumulator.finalizeDispatched]
      split
      · exact h
      · exact All.erase h _
  | undispatch =>
      simp only [Operation.apply, BatchAccumulator.undispatch]
      split
      · exact h
      · split
        · exact h
        · exact All.erase h _

theorem Vouched.run {actions : List Action} (h : Vouched preconfirms acc.dispatched)
    (hactions : ∀ op, .operation op ∈ actions → ∀ txHash i, op.txHash? = some (txHash, i) →
      preconfirms txHash i) : Vouched preconfirms (Action.run acc actions).1.dispatched := by
  induction actions generalizing acc with
  | nil => exact h
  | cons action actions ih =>
      refine ih ?_ fun op hop => hactions op (.tail _ hop)
      cases action with
      | operation op => exact h.apply_operation (hactions op (.head _))
      | cacheSignature | persist => exact h

/-- Truthful messages keep the rows truthful. -/
theorem Vouched.turn {p : Process} {now : Nat} {message : Message}
    (h : Vouched preconfirms p.state.accumulator.dispatched)
    (hmessage : message.Truthful preconfirms) :
    Vouched preconfirms (p.turn now message).state.accumulator.dispatched := by
  rw [Process.turn_accumulator]
  refine h.run fun op hop txHash i hname => ?_
  cases OrchestratorState.causes_of_mem hop with
  | preconfirmed | already | broadcast | bumped =>
      cases hname
      exact hmessage
  | _ => cases hname

theorem Vouched.start {db : Db} (done : FinalizationDone)
    (h : Vouched preconfirms db.dispatchedBatches) :
    Vouched preconfirms (Process.start db done).state.accumulator.dispatched := by
  rw [(Process.start_performs db done).1]
  refine Vouched.run h fun op hop txHash i hname => ?_
  cases Process.causes_of_mem_startActions hop <;> cases hname

theorem Vouched.snapshot (h : Vouched preconfirms acc.dispatched) :
    ∀ row ∈ acc.dispatchedSnapshot, preconfirms row.2.1 row.1 := by
  intro row hrow
  obtain ⟨⟨i, row⟩, hmem, rfl⟩ := List.mem_map.mp hrow
  exact h i row (Std.ExtTreeMap.mem_toList_iff_getElem?_eq_some.mp hmem)

end Rows

section Soundness

variable (preconfirms : B256 → Nat → Prop)

/-- A successful `preconfirmBatch` transaction for batch `i` is in a block up to this one. -/
def L1.Confirms (l1 : L1) (block i : Nat) : Prop :=
  ∃ txHash receipt, preconfirms txHash i ∧ l1.receipt txHash = some receipt ∧
    receipt.success = true ∧ receipt.block ≤ block

namespace Check

/-- The check has seen what it reports: the transactions it found are final. -/
def Sound (l1 : L1) : Check → Prop
  | asked snapshot => ∀ row ∈ snapshot, preconfirms row.2.1 row.1
  | reading snapshot finalizedBlock candidates observations =>
      finalizedBlock ≤ l1.finalized ∧
        (∀ candidate ∈ candidates, preconfirms candidate.2 candidate.1 ∧
          ∃ l1Block ≤ finalizedBlock, (candidate.1, candidate.2, l1Block) ∈ snapshot) ∧
        ∀ i txHash, (i, txHash, .found) ∈ observations → l1.Confirms preconfirms finalizedBlock i
  | answered finalizedBlock (.observed observations) =>
      ∃ block ≤ l1.finalized, finalizedBlock = some block ∧
        ∀ i txHash, (i, txHash, .found) ∈ observations → l1.Confirms preconfirms block i
  | answered _ _ => True

/-- If the receipt that is read next is one of success, then its row holds a block that is not
below the block of the transaction. Of failed transactions nothing is asked. -/
def RecordsInclusion (l1 : L1) : Check → Prop
  | reading snapshot _ ((i, txHash) :: _) _ => ∀ receipt, l1.receipt txHash = some receipt →
      receipt.success = true → ∀ l1Block, (i, txHash, l1Block) ∈ snapshot → receipt.block ≤ l1Block
  | _ => True

end Check

variable {preconfirms} {l1 l1' : L1} {check next : Check}

theorem L1.Confirms.extend {block i : Nat} (h : l1.Confirms preconfirms block i)
    (hextends : l1.Extends l1') (hblock : block ≤ l1.finalized) :
    l1'.Confirms preconfirms block i := by
  obtain ⟨txHash, receipt, hpreconfirms, hreceipt, hsuccess, hle⟩ := h
  exact ⟨txHash, receipt, hpreconfirms, hextends.receipt hreceipt (hle.trans hblock), hsuccess, hle⟩

namespace Check.Sound

/-- What is final stays. -/
theorem extend (h : check.Sound preconfirms l1) (hextends : l1.Extends l1') :
    check.Sound preconfirms l1' := by
  cases check with
  | asked => exact h
  | reading =>
      obtain ⟨hblock, hcandidates, hfound⟩ := h
      exact ⟨hblock.trans hextends.finalized, hcandidates,
        fun i tx hmem => (hfound i tx hmem).extend hextends hblock⟩
  | answered finalizedBlock done =>
      cases done with
      | noOp | taskFailed => trivial
      | observed observations =>
          obtain ⟨block, hblock, heq, hfound⟩ := h
          exact ⟨block, hblock.trans hextends.finalized, heq,
            fun i tx hmem => (hfound i tx hmem).extend hextends hblock⟩

theorem onFinalizedBlock {answer : Option Nat} (h : check.Sound preconfirms l1)
    (hanswer : ∀ block, answer = some block → block = l1.finalized)
    (hnext : check.onFinalizedBlock answer = some next) : next.Sound preconfirms l1 := by
  cases check with
  | reading | answered => cases hnext
  | asked snapshot =>
      cases answer with
      | none =>
          cases hnext
          trivial
      | some block =>
          simp only [Check.onFinalizedBlock] at hnext
          split at hnext
          · cases hnext
            trivial
          · cases hnext
            refine ⟨(hanswer block rfl).le, ?_, by simp⟩
            intro candidate hcandidate
            obtain ⟨⟨i, tx, l1Block⟩, hmem, rfl⟩ := List.mem_map.mp hcandidate
            obtain ⟨hrow, hle⟩ := List.mem_filter.mp hmem
            exact ⟨h _ hrow, l1Block, by simpa using hle, hrow⟩

/-- A transaction that is found is included up to the block of its row, and the row has
passed the filter. -/
theorem onReceipt {available : Bool} {gasLimit : Option Nat} (h : check.Sound preconfirms l1)
    (hincluded : available = true → check.RecordsInclusion l1)
    (hnext : check.onReceipt (fun tx => if available then some (l1.receipt tx) else none) gasLimit =
      some next) : next.Sound preconfirms l1 := by
  cases check with
  | asked | answered => cases hnext
  | reading snapshot block candidates observations =>
      cases candidates with
      | nil => cases hnext
      | cons candidate candidates =>
          obtain ⟨i, tx⟩ := candidate
          obtain ⟨hblock, hcandidates, hfound⟩ := h
          obtain ⟨hpreconfirms, l1Block, hle, hrow⟩ := hcandidates _ (.head _)
          have hobserved : ∀ j txHash, (j, txHash, .found) ∈ observations ++ [(i, tx,
              receiptCheck (if available then some (l1.receipt tx) else none) gasLimit)] →
              l1.Confirms preconfirms block j := by
            intro j txHash hmem
            rw [List.mem_append, List.mem_singleton] at hmem
            obtain hmem | hmem := hmem
            · exact hfound j txHash hmem
            · simp only [Prod.mk.injEq] at hmem
              obtain ⟨rfl, rfl, hcheck⟩ := hmem
              obtain ⟨receipt, hanswer, hsuccess⟩ := receiptCheck_found hcheck.symm
              cases available with
              | true =>
                  have hreceipt : l1.receipt txHash = some receipt := Option.some.inj hanswer
                  exact ⟨txHash, receipt, hpreconfirms, hreceipt, hsuccess,
                    (hincluded rfl receipt hreceipt hsuccess l1Block hrow).trans hle⟩
              | false => cases hanswer
          simp only [Check.onReceipt] at hnext
          split at hnext
          · cases hnext
            exact ⟨block, hblock, rfl, hobserved⟩
          · cases hnext
            exact ⟨hblock, fun c hc => hcandidates c (.tail _ hc), hobserved⟩

theorem onFailure (hnext : check.onFailure = some next) : next.Sound preconfirms l1 := by
  cases check with
  | asked | reading =>
      cases hnext
      trivial
  | answered => cases hnext

end Check.Sound

namespace Node

variable (preconfirms) in
/-- The environment: finalized blocks stay, and messages name the transactions of their
batch. -/
def Allows (s : Node) : NodeEvent → Prop
  | .chain l1 => s.l1.Extends l1
  | .message _ message => message.Truthful preconfirms
  | _ => True

variable (preconfirms) in
def Step (s : Node) (event : NodeEvent) (t : Node) : Prop :=
  s.Allows preconfirms event ∧ s.step event = some t

/-- A receipt of success is read only while its row holds a block that is not below the block
of the transaction. A call that fails reads none. -/
def Orderly (s : Node) : NodeEvent → Prop
  | .receipt k available _ =>
      available = true → ∀ check, s.checks[k]? = some check → check.RecordsInclusion s.l1
  | _ => True

variable (preconfirms) in
def OrderlyStep (s : Node) (event : NodeEvent) (t : Node) : Prop :=
  s.Step preconfirms event t ∧ s.Orderly event

variable (preconfirms) in
structure Sound (s : Node) : Prop where
  rows : Vouched preconfirms s.main.accumulator.dispatched
  checks : ∀ check ∈ s.checks, check.Sound preconfirms s.l1

variable {s t : Node}

theorem Sound.start {db : Db} (h : Vouched preconfirms db.dispatchedBatches) :
    (Node.start l1 db).Sound preconfirms := by
  simp only [Node.start]
  split
  · refine ⟨h, fun check hcheck => ?_⟩
    cases List.mem_singleton.mp hcheck
    exact Vouched.snapshot h
  · exact ⟨Vouched.start .noOp h, by simp⟩

theorem Sound.setCheck {k : Nat} {f : Check → Option Check} (h : s.Sound preconfirms)
    (hf : ∀ check next, s.checks[k]? = some check → check.Sound preconfirms s.l1 →
      f check = some next → next.Sound preconfirms s.l1)
    (hstep : (s.checks[k]?.bind f).map (s.setCheck k) = some t) : t.Sound preconfirms := by
  obtain ⟨next, hnext, rfl⟩ := Option.map_eq_some_iff.mp hstep
  obtain ⟨check, hcheck, hnext⟩ := Option.bind_eq_some_iff.mp hnext
  refine ⟨h.rows, fun other hother => ?_⟩
  obtain hother | rfl := List.mem_or_eq_of_mem_set hother
  · exact h.checks other hother
  · exact hf check other hcheck (h.checks check (List.mem_of_getElem? hcheck)) hnext

theorem Sound.message {process : Process} {now : Nat} {message : Message} (h : s.Sound preconfirms)
    (hmain : s.main = .running process) (hmessage : message.Truthful preconfirms) :
    Sound preconfirms { s with
      main := .running (process.turn now message)
      checks := s.checks ++ (snapshots (process.turn now message).state.spawned).map .asked } := by
  have hrows : Vouched preconfirms process.state.accumulator.dispatched := by
    have hrows := h.rows
    rwa [hmain] at hrows
  refine ⟨hrows.turn hmessage, fun check hcheck => ?_⟩
  obtain hcheck | hcheck := List.mem_append.mp hcheck
  · exact h.checks check hcheck
  · obtain ⟨snapshot, hsnapshot, rfl⟩ := List.mem_map.mp hcheck
    obtain hnone | ⟨_, hsome⟩ := OrchestratorState.snapshots_handle
      { process.state with writes := [], spawned := [] } now message
    · rw [Process.turn, hnone] at hsnapshot
      cases hsnapshot
    · rw [Process.turn, hsome] at hsnapshot
      cases List.mem_singleton.mp hsnapshot
      exact hrows.snapshot

theorem Sound.step {event : NodeEvent} (hstep : s.OrderlyStep preconfirms event t)
    (h : s.Sound preconfirms) : t.Sound preconfirms := by
  obtain ⟨⟨hallowed, hstep⟩, horder⟩ := hstep
  cases event with
  | chain l1 =>
      cases hstep
      exact ⟨h.rows, fun check hcheck => (h.checks check hcheck).extend hallowed⟩
  | message now message =>
      simp only [Node.step] at hstep
      split at hstep
      · cases hstep
      · next process hmain =>
          split at hstep
          · cases hstep
          · cases hstep
            exact h.message hmain hallowed
  | finalizedBlock k available =>
      refine h.setCheck (fun check next _ hsound hnext => hsound.onFinalizedBlock ?_ hnext) hstep
      intro block hblock
      cases available with
      | true => exact (Option.some.inj hblock).symm
      | false => cases hblock
  | receipt k available gasLimit =>
      exact h.setCheck (fun check next hcheck hsound hnext =>
        hsound.onReceipt (fun havailable => horder havailable check hcheck) hnext) hstep
  | taskFailed k => exact h.setCheck (fun _ _ _ _ hnext => .onFailure hnext) hstep
  | deliver now k =>
      simp only [Node.step] at hstep
      split at hstep
      · split at hstep
        · cases hstep
        · cases hstep
          refine ⟨?_, fun check hcheck => h.checks check (List.mem_of_mem_eraseIdx hcheck)⟩
          have hrows := h.rows
          cases hmain : s.main with
          | starting db =>
              rw [hmain] at hrows
              exact Vouched.start _ hrows
          | running process =>
              rw [hmain] at hrows
              exact hrows.turn trivial
      · cases hstep

/-- The actions of a result that the loop takes. -/
theorem finalize_of_forgotten {main : Main} {now : Nat} {done : FinalizationDone} {i : Nat}
    (hknown : main.accumulator.range i ≠ none)
    (hforgotten : (main.finalizationDone now done).accumulator.range i = none) :
    ∃ observations txHash, done = .observed observations ∧ (i, txHash, .found) ∈ observations := by
  have hcauses : OrchestratorState.Causes main.accumulator (.finalizationDone done)
      (.operation (.finalizeDispatched i)) := by
    cases main with
    | starting db =>
        rw [Main.finalizationDone, Main.accumulator,
          (Process.start_performs db done).1] at hforgotten
        exact Process.causes_of_mem_startActions (Action.finalize_mem hknown hforgotten)
    | running process =>
        rw [Main.finalizationDone, Main.accumulator, Process.turn_accumulator] at hforgotten
        exact OrchestratorState.causes_of_mem (Action.finalize_mem hknown hforgotten)
  cases hcauses with
  | finalize hmem => exact ⟨_, _, rfl, hmem⟩

end Node

end Soundness

/-- A batch is forgotten only after its preconfirmation is final: in a run in which no receipt
of success is read while its row holds a block below that of the transaction, the step that
forgets a batch applies a check, and a successful transaction for the batch is in a block
up to the finalized one that was reported to this check. -/
theorem forgotten_only_when_final {preconfirms : B256 → Nat → Prop} {l1 : L1} {db : Db}
    {events : List NodeEvent} {event : NodeEvent} {s t : Node} {i : Nat}
    (hdb : Vouched preconfirms db.dispatchedBatches)
    (hrun : Run (Node.OrderlyStep preconfirms) (Node.start l1 db) events s)
    (hstep : s.Step preconfirms event t) (hknown : s.main.accumulator.range i ≠ none)
    (hforgotten : t.main.accumulator.range i = none) :
    ∃ now k block done, event = .deliver now k ∧
      s.checks[k]? = some (.answered (some block) done) ∧ s.l1.Confirms preconfirms block i := by
  have hsound : s.Sound preconfirms := hrun.invariant Node.Sound.step (.start hdb)
  obtain ⟨_, hstep⟩ := hstep
  have hkept : ∀ k (f : Check → Option Check),
      (s.checks[k]?.bind f).map (s.setCheck k) ≠ some t := by
    intro k f heq
    obtain ⟨_, _, rfl⟩ := Option.map_eq_some_iff.mp heq
    exact hknown hforgotten
  cases event with
  | chain =>
      cases hstep
      exact absurd hforgotten hknown
  | finalizedBlock | receipt | taskFailed => exact absurd hstep (hkept _ _)
  | message now message =>
      simp only [Node.step] at hstep
      split at hstep
      · cases hstep
      · next process hmain =>
          split at hstep
          · cases hstep
          · next hmessage =>
              cases hstep
              rw [hmain] at hknown
              rw [Main.accumulator, Process.turn_accumulator] at hforgotten
              cases OrchestratorState.causes_of_mem (Action.finalize_mem hknown hforgotten)
              simp [Message.isFinalizationDone] at hmessage
  | deliver now k =>
      simp only [Node.step] at hstep
      split at hstep
      · next finalizedBlock done hcheck =>
          split at hstep
          · cases hstep
          · cases hstep
            obtain ⟨observations, txHash, rfl, hmem⟩ := Node.finalize_of_forgotten hknown hforgotten
            obtain ⟨block, _, rfl, hfound⟩ := hsound.checks _ (List.mem_of_getElem? hcheck)
            exact ⟨now, k, block, _, rfl, hcheck, hfound i txHash hmem⟩
      · cases hstep

section Sample

/-- Transaction 1 is in block 50. -/
private def chainAt (finalized : Nat) : L1 :=
  ⟨finalized, fun txHash => if txHash = .ofNat 1 then some ⟨50, true, 21000⟩ else none⟩

/-- A new process finds a row with the block of its transaction, and the block is
final. -/
theorem forgotten_only_when_final_sample :
    let db : Db := { Db.empty with
      dispatchedBatches := (∅ : Std.ExtTreeMap Nat DispatchedBatch).insert 1
        ⟨1, 1, .ofNat 1, 50, some 7, some 100, some 10⟩ }
    let done : FinalizationDone := .observed [(1, .ofNat 1, .found)]
    (Process.start db done).state.accumulator.range 1 = none ∧
      (chainAt 60).Confirms (fun txHash i => txHash = .ofNat 1 ∧ i = 1) 60 1 := by
  intro db done
  have hdispatched : (BatchAccumulator.withDb db).1.hasDispatched = true := by decide +kernel
  have hsnapshot : (BatchAccumulator.withDb db).1.dispatchedSnapshot = [(1, .ofNat 1, 50)] := by
    decide +kernel
  have hforgotten : (Process.start db done).state.accumulator.range 1 = none := by decide +kernel
  have hdb : Vouched (fun txHash i => txHash = .ofNat 1 ∧ i = 1) db.dispatchedBatches :=
    All.insert .empty ⟨rfl, rfl⟩
  have hasked : (Node.start (chainAt 60) db).OrderlyStep (fun txHash i => txHash = .ofNat 1 ∧ i = 1)
      (.finalizedBlock 0 true)
      ⟨chainAt 60, .starting db, [.reading [(1, .ofNat 1, 50)] 60 [(1, .ofNat 1)] []]⟩ := by
    refine ⟨⟨trivial, ?_⟩, trivial⟩
    simp only [Node.start, hdispatched, hsnapshot, if_true]
    rfl
  have hread : Node.OrderlyStep (fun txHash i => txHash = .ofNat 1 ∧ i = 1)
      ⟨chainAt 60, .starting db, [.reading [(1, .ofNat 1, 50)] 60 [(1, .ofNat 1)] []]⟩
      (.receipt 0 true none) ⟨chainAt 60, .starting db, [.answered (some 60) done]⟩ := by
    refine ⟨⟨trivial, rfl⟩, ?_⟩
    rintro _ check ⟨⟩ receipt ⟨⟩ _ l1Block hrow
    simp_all
  have hdelivered : Node.Step (fun txHash i => txHash = .ofNat 1 ∧ i = 1)
      ⟨chainAt 60, .starting db, [.answered (some 60) done]⟩ (.deliver 0 0)
      ⟨chainAt 60, .running (Process.start db done), []⟩ := ⟨trivial, rfl⟩
  obtain ⟨_, _, block, _, heq, hcheck, hconfirms⟩ := forgotten_only_when_final (i := 1) hdb
    (.cons hasked (.cons hread (.nil _))) hdelivered (by decide +kernel) hforgotten
  cases heq
  cases hcheck
  exact ⟨hforgotten, hconfirms⟩

/-- The worker has broadcast transaction 1, and block 50, which is not final, includes it.
The row still holds 0 as its block, so the check takes it for final and the batch is
forgotten. The chain may then drop the transaction. -/
theorem forgotten_before_final :
    let events := [NodeEvent.message 0 (.l1Event (.batchCommitted 1 1 1)),
      .message 0 (.l1Event (.batchSubmitted 1)),
      .message 1 (.blockResult ⟨1, ⟨1, .zero, .zero, .zero 64⟩⟩),
      .message 2 (.signDone 1 (.signed ⟨[], [], [7]⟩)),
      .message 3 (.rbfBump 1 (.initialBroadcast (.ofNat 1) 7 100 10)),
      .message 4 .finalizationTick, .finalizedBlock 0 true, .receipt 0 true none]
    let run := fun events => List.foldlM Node.step (Node.start (chainAt 10) .empty) events
    (run events).map (fun s => (s.main.accumulator.range 1, s.checks)) =
        some (some (1, 1), [.answered (some 10) (.observed [(1, .ofNat 1, .found)])]) ∧
      (run (events ++ [.deliver 5 0])).map (fun s => s.main.accumulator.range 1) = some none ∧
      (∀ txHash receipt, (chainAt 10).receipt txHash = some receipt → 10 < receipt.block) ∧
      (chainAt 10).Extends ⟨10, fun _ => none⟩ := by
  refine ⟨by decide +kernel, by decide +kernel, ?_, le_rfl, ?_⟩ <;>
    simp only [chainAt, Option.ite_none_right_eq_some, Option.some.injEq]
  · rintro _ _ ⟨_, rfl⟩
    decide
  · rintro _ _ ⟨_, rfl⟩ hle
    exact absurd hle (by decide)

end Sample

end FluentStf.Orchestrator
