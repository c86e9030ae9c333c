import FluentStf.Orchestrator.Turn

/-! The workers beside the main loop. A message of a worker carries the index of its batch
and nothing else that tells workers apart, so the identity of a worker, the worker that
the gate is held for and the worker that made a dispatch are kept beside the process. -/
namespace FluentStf.Orchestrator

open OrchestratorState Std

/-- A dispatch worker, with the identity that its messages lack. -/
structure Worker where
  id : Nat
  batch : Nat
  /-- Spawned at startup for a transaction of an earlier process. -/
  resumed : Bool
deriving DecidableEq

/-- The process with its workers. -/
structure System where
  process : Process
  spawned : List Worker
  /-- Workers whose outcome has not been handled. -/
  live : List Worker
  /-- The worker that the gate is held for. -/
  gateHolder : Option Nat
  /-- The worker that made the dispatch of a batch. -/
  dispatcher : ExtTreeMap Nat Nat

/-- A message, from a worker or not. Outcomes end the worker. -/
inductive SystemEvent where
  /-- A message that is not from a worker. -/
  | message (now : Nat) (message : Message)
  | bump (now : Nat) (worker : Worker) (bump : RbfBumpEvent)
  | outcome (now : Nat) (worker : Worker) (outcome : DispatchOutcome)
deriving DecidableEq

def Message.fromWorker : Message → Bool
  | rbfBump _ _ | dispatchDone _ _ => true
  | _ => false

section Phases

variable {acc : BatchAccumulator} {i : Nat} {phase : Phase}

theorem Action.apply_phase (action : Action) (h : acc.InPhase i phase) :
    ∃ next, (action.apply acc).1.InPhase i next ∧
      (phase = next ∨ ∃ op, action = .operation op ∧ Phase.Step i op phase next) := by
  cases action with
  | operation op =>
      obtain ⟨next, hstep, hnext⟩ := op.apply_phase h
      exact ⟨next, hnext, .inr ⟨op, rfl, hstep⟩⟩
  | cacheSignature => exact ⟨phase, h.congr rfl rfl, .inl rfl⟩
  | persist => exact ⟨phase, h, .inl rfl⟩

variable {s : OrchestratorState} {actions : List Action}

theorem Action.run_phased (h : acc.Phased) : (run acc actions).1.Phased := by
  induction actions generalizing acc with
  | nil => exact h
  | cons action actions ih =>
      refine ih fun i => ?_
      obtain ⟨phase, hphase⟩ := h i
      obtain ⟨next, hnext, _⟩ := action.apply_phase hphase
      exact ⟨next, hnext⟩

/-- A batch becomes pending when it is registered or undispatched. -/
theorem Action.pending_of_run {batch : PendingBatch} (h : acc.InPhase i phase)
    (hnext : (run acc actions).1.InPhase i (.pending batch))
    (hkept : ∀ action ∈ actions, action ≠ .operation (.undispatch i) ∧
      ∀ first last, action ≠ .operation (.setBatch i first last)) :
    ∃ batch, phase = .pending batch := by
  induction actions generalizing acc phase with
  | nil => exact ⟨batch, h.unique hnext⟩
  | cons action actions ih =>
      obtain ⟨middle, hmiddle, hstep⟩ := action.apply_phase h
      obtain ⟨batch, rfl⟩ := ih hmiddle hnext fun a ha => hkept a (.tail _ ha)
      obtain rfl | ⟨op, rfl, hstep⟩ := hstep
      · exact ⟨batch, rfl⟩
      · obtain ⟨hundispatch, hregister⟩ := hkept _ (.head _)
        obtain hbefore | ⟨first, last, rfl⟩ | rfl := hstep.pending_before
        · exact hbefore
        · exact absurd rfl (hregister first last)
        · exact absurd rfl hundispatch

/-- Without a broadcast no batch becomes the own of the process. -/
theorem Action.own_of_run {next : Phase} (h : acc.InPhase i phase)
    (hnext : (run acc actions).1.InPhase i next) (hown : next.Own)
    (hkept : ∀ action ∈ actions, ∀ tx l1 nonce fee tip,
      action ≠ .operation (.markDispatched i tx l1 nonce fee tip)) : phase.Own := by
  induction actions generalizing acc phase with
  | nil => exact h.unique hnext ▸ hown
  | cons action actions ih =>
      obtain ⟨middle, hmiddle, hstep⟩ := action.apply_phase h
      have hmiddle_own := ih hmiddle hnext fun a ha => hkept a (.tail _ ha)
      obtain rfl | ⟨op, rfl, hstep⟩ := hstep
      · exact hmiddle_own
      · obtain hbefore | ⟨⟨tx, l1, nonce, fee, tip, rfl⟩, _⟩ := hstep.own_before hmiddle_own
        · exact hbefore
        · exact absurd rfl (hkept _ (.head _) tx l1 nonce fee tip)

/-- Other messages than those of its worker make a batch pending if it is committed, or if
its current transaction was observed to have reverted. -/
theorem OrchestratorState.actions_of_message {message : Message}
    (hmessage : message.fromWorker = false)
    (hcommitted : ∀ first last, message ≠ .l1Event (.batchCommitted i first last))
    (hreverted : ∀ observations, message = .finalizationDone (.observed observations) →
      ∀ txHash kind, (i, txHash, .reverted kind) ∈ observations →
        s.accumulator.dispatchedTxHash i ≠ some txHash) :
    ∀ action ∈ s.actions message, action ≠ .operation (.undispatch i) ∧
      ∀ first last, action ≠ .operation (.setBatch i first last) := by
  intro action haction
  cases causes_of_mem haction with
  | @undispatch observations =>
      have hkept := undispatch_notMem_finalizationActions (hreverted observations rfl)
      exact ⟨fun heq => hkept (heq ▸ haction), nofun⟩
  | committed j first last =>
      refine ⟨nofun, ?_⟩
      rintro _ _ ⟨⟩
      exact hcommitted first last rfl
  | landed | already | reverted | failed | taskFailed | broadcast | bumped => cases hmessage
  | _ => exact ⟨nofun, nofun⟩

/-- Only a broadcast makes a dispatch that the process owns. -/
theorem OrchestratorState.actions_markDispatched {message : Message} {tx : B256}
    {l1 nonce fee tip : Nat}
    (h : .operation (.markDispatched i tx l1 nonce fee tip) ∈ s.actions message) :
    message = .rbfBump i (.initialBroadcast tx nonce fee tip) := by
  cases causes_of_mem h
  rfl

/-- A report of a worker makes a dispatch only if it is a broadcast for a pending batch. -/
theorem OrchestratorState.own_before_rbfBump {j : Nat} {bump : RbfBumpEvent} {next : Phase}
    (h : s.accumulator.InPhase i phase)
    (hnext : (Action.run s.accumulator (s.actions (.rbfBump j bump))).1.InPhase i next)
    (hown : next.Own) :
    phase.Own ∨ (∃ tx nonce fee tip, bump = .initialBroadcast tx nonce fee tip) ∧ j = i ∧
      i ∈ s.accumulator.batches := by
  cases bump with
  | initialBroadcast tx nonce fee tip =>
      obtain ⟨after, hstep, hafter⟩ :=
        (Operation.markDispatched j tx 0 nonce fee tip).apply_phase h
      refine (hstep.own_before (hafter.unique hnext ▸ hown)).imp_right ?_
      rintro ⟨⟨_, _, _, _, _, heq⟩, batch, rfl⟩
      refine ⟨⟨tx, nonce, fee, tip, rfl⟩, (Operation.markDispatched.inj heq).1, ?_⟩
      rw [ExtTreeMap.mem_iff_isSome_getElem?, h.1, Option.isSome_some]
  | bumped | capReached =>
      refine .inl (Action.own_of_run h hnext hown ?_)
      rintro action haction tx l1 nonce fee tip rfl
      cases actions_markDispatched haction

end Phases

namespace System

/-- The batches of resume workers among new tasks. -/
def resumedBatches (tasks : List Task) : List Nat :=
  tasks.filterMap fun
    | .rbfWorker batchIndex _ (some _) => some batchIndex
    | _ => none

/-- A new process with its resume workers. They go on with the dispatch of their batch. -/
def start (db : Db) (done : FinalizationDone) : System :=
  let process := Process.start db done
  let workers := (resumedBatches process.state.spawned).zipIdx.map fun (batch, id) =>
    ⟨id, batch, true⟩
  { process
    spawned := workers
    live := workers
    gateHolder := none
    dispatcher := workers.foldl (fun table worker => table.insert worker.batch worker.id) ∅ }

/-- One turn of the loop. A new worker takes the gate. -/
def turn (s : System) (now : Nat) (message : Message) : System :=
  let process := s.process.turn now message
  let fresh := (freshWorkers process.state.spawned).map fun batch =>
    (⟨s.spawned.length, batch, false⟩ : Worker)
  { s with
    process
    spawned := s.spawned ++ fresh
    live := s.live ++ fresh
    gateHolder := if process.state.dispatchingBatch.isNone then none
      else if fresh = [] then s.gateHolder else some s.spawned.length }

/-- A broadcast makes a dispatch if the batch is pending. -/
def noteBroadcast (s : System) (worker : Worker) : RbfBumpEvent → System
  | .initialBroadcast _ _ _ _ =>
      if s.process.state.accumulator.batches.contains worker.batch then
        { s with dispatcher := s.dispatcher.insert worker.batch worker.id }
      else s
  | _ => s

/-- One step, if it is possible. A worker may still report bumps after its outcome. -/
def step (s : System) : SystemEvent → Option System
  | .message now message => if message.fromWorker then none else some (s.turn now message)
  | .bump now worker bump =>
      if worker ∈ s.spawned then
        some ((s.noteBroadcast worker bump).turn now (.rbfBump worker.batch bump))
      else none
  | .outcome now worker outcome =>
      if worker ∈ s.live then
        some ({ s with live := s.live.erase worker }.turn now (.dispatchDone worker.batch outcome))
      else none

def Step (s : System) (event : SystemEvent) (t : System) : Prop :=
  s.process.state.shutdown = false ∧ s.step event = some t

/-- A broadcast is handled before the outcome of its worker. While a resume worker runs,
its batch is not undispatched by a finalization check, and not committed again after it
was finalized. -/
def Orderly (s : System) : SystemEvent → Prop
  | .bump _ worker (.initialBroadcast _ _ _ _) => worker ∈ s.live
  | .message _ (.finalizationDone (.observed observations)) =>
      ∀ worker ∈ s.live, worker.resumed = true → ∀ txHash kind,
        (worker.batch, txHash, .reverted kind) ∈ observations →
          s.process.state.accumulator.dispatchedTxHash worker.batch ≠ some txHash
  | .message _ (.l1Event (.batchCommitted i _ _)) =>
      ∀ worker ∈ s.live, worker.resumed = true → worker.batch = i →
        i ∈ s.process.state.accumulator.dispatched
  | _ => True

def OrderlyStep (s : System) (event : SystemEvent) (t : System) : Prop :=
  s.Step event t ∧ s.Orderly event

/-- The invariant of the workers. A fresh worker holds the gate until its outcome. A
resume worker runs beside it, for a batch that is not pending again. -/
structure Sound (s : System) : Prop where
  phased : s.process.state.accumulator.Phased
  distinct : (s.live.map Worker.batch).Nodup
  held : ∀ batch, s.process.state.dispatchingBatch = some batch →
    ∃ worker ∈ s.live, worker.batch = batch ∧ worker.resumed = false ∧
      s.gateHolder = some worker.id
  fresh : ∀ worker ∈ s.live, worker.resumed = false →
    s.process.state.dispatchingBatch = some worker.batch
  resumed : ∀ worker ∈ s.live, worker.resumed = true → ∀ batch,
    ¬s.process.state.accumulator.InPhase worker.batch (.pending batch)
  dispatcher : ∀ worker ∈ s.live, ∀ phase,
    s.process.state.accumulator.InPhase worker.batch phase → phase.Own →
      s.dispatcher[worker.batch]? = some worker.id

variable {s t : System}

theorem eq_of_batch {worker other : Worker} (hdistinct : (s.live.map Worker.batch).Nodup)
    (hworker : worker ∈ s.live) (hother : other ∈ s.live) (h : worker.batch = other.batch) :
    worker = other := List.inj_on_of_nodup_map hdistinct hworker hother h

variable {now : Nat}

/-- After a turn the gate is either as the message left it, or a new worker has it. -/
theorem turn_sound {message : Message} (hphased : s.process.state.accumulator.Phased)
    (hdistinct : (s.live.map Worker.batch).Nodup)
    (hheld : ∀ batch, s.process.state.gateAfter message = some batch →
      ∃ worker ∈ s.live, worker.batch = batch ∧ worker.resumed = false ∧
        s.gateHolder = some worker.id)
    (hfresh : ∀ worker ∈ s.live, worker.resumed = false →
      s.process.state.gateAfter message = some worker.batch)
    (hresumed : ∀ worker ∈ s.live, worker.resumed = true → ∀ batch,
      ¬(s.process.turn now message).state.accumulator.InPhase worker.batch (.pending batch))
    (hdispatcher : ∀ worker ∈ s.live, ∀ phase,
      (s.process.turn now message).state.accumulator.InPhase worker.batch phase → phase.Own →
        s.dispatcher[worker.batch]? = some worker.id) :
    (s.turn now message).Sound := by
  have hphased' : (s.process.turn now message).state.accumulator.Phased := by
    rw [Process.turn_accumulator]
    exact Action.run_phased hphased
  obtain ⟨hgate, hworkers⟩ | ⟨i, signature, hopen, _, hfirst, hgate, hworkers⟩ :=
    s.process.turn_gated now message
  · -- no new worker
    have hturn : s.turn now message = { s with
        process := s.process.turn now message
        gateHolder := if (s.process.state.gateAfter message).isNone then none
          else s.gateHolder } := by
      simp [turn, hworkers, hgate]
    rw [hturn]
    refine ⟨hphased', hdistinct, ?_, ?_, hresumed, hdispatcher⟩
    · intro batch hbatch
      obtain ⟨worker, hmem, hwbatch, hkind, hholder⟩ := hheld batch (hgate ▸ hbatch)
      refine ⟨worker, hmem, hwbatch, hkind, ?_⟩
      rw [hgate] at hbatch
      simp [hbatch, hholder]
    · intro worker hmem hkind
      exact hgate.trans (hfresh worker hmem hkind)
  · -- the gate was open, so the only live workers are resume workers
    obtain ⟨⟨batch, hbatch⟩, _⟩ := BatchAccumulator.firstSequentialSigned_some hfirst
    obtain ⟨phase, hphase⟩ := hphased' i
    have hpending : phase = .pending batch := by
      cases phase <;> simp_all [BatchAccumulator.InPhase]
    subst hpending
    have hlive : ∀ worker ∈ s.live, worker.resumed = true := by
      intro worker hmem
      by_contra hkind
      have := hfresh worker hmem (by simpa using hkind)
      rw [hopen] at this
      cases this
    have hnew : i ∉ s.live.map Worker.batch := by
      intro hi
      obtain ⟨worker, hmem, rfl⟩ := List.mem_map.mp hi
      exact hresumed worker hmem (hlive worker hmem) batch hphase
    have hturn : s.turn now message = { s with
        process := s.process.turn now message
        spawned := s.spawned ++ [⟨s.spawned.length, i, false⟩]
        live := s.live ++ [⟨s.spawned.length, i, false⟩]
        gateHolder := some s.spawned.length } := by
      simp [turn, hworkers, hgate]
    rw [hturn]
    refine ⟨hphased', ?_, ?_, ?_, ?_, ?_⟩
    · rw [List.map_append, List.nodup_append]
      exact ⟨hdistinct, by simp, by simpa using hnew⟩
    · intro other hother
      rw [hgate] at hother
      cases hother
      exact ⟨⟨s.spawned.length, i, false⟩, by simp, rfl, rfl, rfl⟩
    · intro worker hmem hkind
      obtain hmem | hmem := List.mem_append.mp hmem
      · rw [hlive worker hmem] at hkind
        cases hkind
      · cases List.mem_singleton.mp hmem
        exact hgate
    · intro worker hmem hkind
      obtain hmem | hmem := List.mem_append.mp hmem
      · exact hresumed worker hmem hkind
      · cases List.mem_singleton.mp hmem
        cases hkind
    · intro worker hmem phase hwphase hown
      obtain hmem | hmem := List.mem_append.mp hmem
      · exact hdispatcher worker hmem phase hwphase hown
      · cases List.mem_singleton.mp hmem
        cases hphase.unique hwphase
        exact hown.elim

theorem Sound.message {message : Message} (h : s.Sound) (hmessage : message.fromWorker = false)
    (horder : s.Orderly (.message now message)) :
    (s.turn now message).Sound := by
  have hgate : s.process.state.gateAfter message = s.process.state.dispatchingBatch := by
    cases message with
    | dispatchDone => cases hmessage
    | _ => rfl
  refine turn_sound h.phased h.distinct (hgate ▸ h.held) (hgate ▸ h.fresh) ?_ ?_
  · intro worker hworker hkind batch hpending
    obtain ⟨phase, hphase⟩ := h.phased worker.batch
    have hbefore : ∃ batch, phase = .pending batch := by
      rw [Process.turn_accumulator] at hpending
      by_cases hcommitted : ∃ first last,
          message = .l1Event (.batchCommitted worker.batch first last)
      · -- a dispatched batch is not registered again
        obtain ⟨first, last, rfl⟩ := hcommitted
        have hcontains : s.process.state.accumulator.dispatched.contains worker.batch = true :=
          horder worker hworker hkind rfl
        simp only [actions, Action.run, Action.apply, Operation.apply,
          BatchAccumulator.setBatch, hcontains, Bool.true_or, if_true] at hpending
        exact ⟨batch, hphase.unique hpending⟩
      · refine Action.pending_of_run hphase hpending (actions_of_message hmessage
          (fun first last heq => hcommitted ⟨first, last, heq⟩) ?_)
        rintro observations rfl
        exact horder worker hworker hkind
    obtain ⟨batch, rfl⟩ := hbefore
    exact h.resumed worker hworker hkind batch hphase
  · intro worker hworker next hnext hown
    obtain ⟨phase, hphase⟩ := h.phased worker.batch
    rw [Process.turn_accumulator] at hnext
    refine h.dispatcher worker hworker phase hphase (Action.own_of_run hphase hnext hown ?_)
    rintro action haction tx l1 nonce fee tip rfl
    rw [actions_markDispatched haction] at hmessage
    cases hmessage

/-- The table after a broadcast. -/
theorem noteBroadcast_eq (s : System) (worker : Worker) (bump : RbfBumpEvent) :
    s.noteBroadcast worker bump =
      { s with dispatcher := (s.noteBroadcast worker bump).dispatcher } := by
  cases bump with
  | initialBroadcast =>
      simp only [noteBroadcast]
      split <;> rfl
  | bumped | capReached => rfl

/-- The worker of a broadcast is the only one of its batch. -/
theorem Sound.noteBroadcast {worker other : Worker} {bump : RbfBumpEvent} {next : Phase}
    (h : s.Sound) (horder : s.Orderly (.bump now worker bump)) (hother : other ∈ s.live)
    (hnext : (s.process.turn now (.rbfBump worker.batch bump)).state.accumulator.InPhase
      other.batch next) (hown : next.Own) :
    (s.noteBroadcast worker bump).dispatcher[other.batch]? = some other.id := by
  obtain ⟨phase, hphase⟩ := h.phased other.batch
  rw [Process.turn_accumulator] at hnext
  obtain hbefore | ⟨⟨tx, nonce, fee, tip, rfl⟩, hbatch, hpending⟩ :=
    own_before_rbfBump hphase hnext hown
  · have hdispatcher := h.dispatcher other hother phase hphase hbefore
    cases bump with
    | initialBroadcast tx nonce fee tip =>
        simp only [System.noteBroadcast]
        split
        · next hpending =>
            have hne : worker.batch ≠ other.batch := by
              intro hbatch
              rw [hbatch, ExtTreeMap.contains_eq_isSome_getElem?] at hpending
              cases phase with
              | absent | pending => exact hbefore
              | dispatched =>
                  rw [hphase.1] at hpending
                  cases hpending
            simpa [ExtTreeMap.getElem?_insert, hne] using hdispatcher
        · exact hdispatcher
    | bumped | capReached => exact hdispatcher
  · cases eq_of_batch h.distinct horder hother hbatch
    have hcontains : s.process.state.accumulator.batches.contains worker.batch = true := hpending
    simp [System.noteBroadcast, hcontains]

theorem Sound.bump {worker : Worker} {bump : RbfBumpEvent} (h : s.Sound)
    (horder : s.Orderly (.bump now worker bump)) :
    ((s.noteBroadcast worker bump).turn now (.rbfBump worker.batch bump)).Sound := by
  rw [noteBroadcast_eq]
  refine turn_sound h.phased h.distinct h.held h.fresh ?_ ?_
  · intro other hother hkind batch hpending
    obtain ⟨phase, hphase⟩ := h.phased other.batch
    rw [Process.turn_accumulator] at hpending
    obtain ⟨batch, rfl⟩ := Action.pending_of_run hphase hpending fun action haction => by
      cases causes_of_mem haction <;> exact ⟨nofun, nofun⟩
    exact h.resumed other hother hkind batch hphase
  · intro other hother next hnext hown
    exact h.noteBroadcast horder hother hnext hown

/-- The other workers are about other batches. -/
theorem Sound.outcome {worker : Worker} {outcome : DispatchOutcome} (h : s.Sound)
    (hworker : worker ∈ s.live) :
    ({ s with live := s.live.erase worker }.turn now
      (.dispatchDone worker.batch outcome)).Sound := by
  have hothers : ∀ other, other ∈ s.live.erase worker ↔
      other ∈ s.live ∧ other.batch ≠ worker.batch := by
    intro other
    rw [h.distinct.of_map.mem_erase_iff, and_comm, and_congr_right_iff]
    intro hother
    rw [not_iff_not]
    exact ⟨congrArg _, eq_of_batch h.distinct hother hworker⟩
  have hkept : ∀ other ∈ s.live.erase worker, ∀ phase,
      (s.process.turn now (.dispatchDone worker.batch outcome)).state.accumulator.InPhase
        other.batch phase ↔ s.process.state.accumulator.InPhase other.batch phase := by
    intro other hother phase
    have hframe := s.process.turn_frame now (.dispatchDone worker.batch outcome)
      (i := other.batch) (fun hbatch => ((hothers other).mp hother).2 hbatch.symm)
    exact ⟨fun hphase => hphase.congr hframe.1.symm hframe.2.1.symm,
      fun hphase => hphase.congr hframe.1 hframe.2.1⟩
  refine turn_sound h.phased (h.distinct.sublist (List.erase_sublist.map _)) ?_ ?_ ?_ ?_
  · intro batch hbatch
    have hgate : s.process.state.dispatchingBatch = some batch ∧ batch ≠ worker.batch := by
      simp only [gateAfter, clearGate] at hbatch
      split at hbatch
      · cases hbatch
      · next hne => exact ⟨hbatch, fun heq => hne (heq ▸ hbatch)⟩
    obtain ⟨holder, hholder, rfl, hrest⟩ := h.held batch hgate.1
    exact ⟨holder, (hothers holder).mpr ⟨hholder, hgate.2⟩, rfl, hrest⟩
  · intro other hother hkind
    obtain ⟨hlive, hne⟩ := (hothers other).mp hother
    have hgate := h.fresh other hlive hkind
    simp [gateAfter, clearGate, hgate, hne]
  · intro other hother hkind batch hpending
    exact h.resumed other ((hothers other).mp hother).1 hkind batch
      ((hkept other hother _).mp hpending)
  · intro other hother phase hphase hown
    exact h.dispatcher other ((hothers other).mp hother).1 phase
      ((hkept other hother phase).mp hphase) hown

theorem Sound.step {event : SystemEvent} (hstep : s.OrderlyStep event t) (h : s.Sound) :
    t.Sound := by
  obtain ⟨⟨_, hstep⟩, horder⟩ := hstep
  cases event with
  | message now message =>
      simp only [System.step] at hstep
      split at hstep
      · cases hstep
      · next hmessage =>
          cases hstep
          exact h.message (by simpa using hmessage) horder
  | bump now worker bump =>
      simp only [System.step] at hstep
      split at hstep
      · cases hstep
        exact h.bump horder
      · cases hstep
  | outcome now worker outcome =>
      simp only [System.step] at hstep
      split at hstep
      · next hworker =>
          cases hstep
          exact h.outcome hworker
      · cases hstep

section Start

variable (acc : BatchAccumulator) (db : Db)

theorem resumedBatches_eq : resumedBatches (Process.resumeWorkers acc db) =
    (acc.dispatched.toList.filter fun (i, row) => row.nonce.isSome && row.maxFeePerGas.isSome &&
      row.maxPriorityFeePerGas.isSome && (db.getBatchSignature i).isSome).map Prod.fst := by
  rw [resumedBatches, Process.resumeWorkers, List.filterMap_filterMap, ← List.filterMap_eq_map,
    ← List.filterMap_eq_filter, List.filterMap_filterMap]
  refine List.filterMap_congr fun (i, row) _ => ?_
  cases hnonce : row.nonce <;> cases hfee : row.maxFeePerGas <;>
    cases htip : row.maxPriorityFeePerGas <;> cases hsig : db.getBatchSignature i <;>
    simp [Option.guard, *]

/-- The batch of a resume worker is dispatched. -/
theorem mem_resumedBatches {batch : Nat}
    (h : batch ∈ resumedBatches (Process.resumeWorkers acc db)) :
    ∃ row, acc.dispatched[batch]? = some row := by
  rw [resumedBatches_eq] at h
  obtain ⟨⟨i, row⟩, hmem, rfl⟩ := List.mem_map.mp h
  exact ⟨row, ExtTreeMap.mem_toList_iff_getElem?_eq_some.mp (List.mem_filter.mp hmem).1⟩

theorem nodup_resumedBatches : (resumedBatches (Process.resumeWorkers acc db)).Nodup := by
  rw [resumedBatches_eq]
  have hkeys := ExtTreeMap.distinct_keys_toList (t := acc.dispatched)
  refine List.Pairwise.map _ ?_ (hkeys.filter _)
  rintro a b hne heq
  exact hne (by simp [heq])

/-- All workers of a batch have the same identity. -/
theorem getElem?_dispatchers {workers : List Worker} {table : ExtTreeMap Nat Nat}
    {batch id : Nat} (hid : ∀ worker ∈ workers, worker.batch = batch → worker.id = id)
    (h : table[batch]? = some id ∨ ∃ worker ∈ workers, worker.batch = batch) :
    (workers.foldl (fun table worker => table.insert worker.batch worker.id)
      table)[batch]? = some id := by
  induction workers generalizing table with
  | nil => simpa using h
  | cons first workers ih =>
      refine ih (fun worker hworker => hid worker (.tail _ hworker)) ?_
      by_cases hfirst : first.batch = batch
      · exact .inl (by simp [hfirst, hid first (.head _) hfirst])
      · obtain htable | ⟨worker, hworker, hbatch⟩ := h
        · exact .inl (by simpa [ExtTreeMap.getElem?_insert, hfirst] using htable)
        · obtain rfl | hworker := List.mem_cons.mp hworker
          · exact absurd hbatch hfirst
          · exact .inr ⟨worker, hworker, hbatch⟩

variable {db : Db}

/-- At the start every batch is in one phase. -/
theorem start_phased (done : FinalizationDone)
    (hdb : ∀ i, ¬(i ∈ db.pendingBatches ∧ i ∈ db.dispatchedBatches)) :
    (Process.start db done).state.accumulator.Phased := by
  rw [(Process.start_performs db done).1]
  refine Action.run_phased fun i => ?_
  have hboth := hdb i
  rw [ExtTreeMap.mem_iff_isSome_getElem?, ExtTreeMap.mem_iff_isSome_getElem?] at hboth
  cases hpending : db.pendingBatches[i]? with
  | none =>
      cases hdispatched : db.dispatchedBatches[i]? with
      | none => exact ⟨.absent, hpending, hdispatched⟩
      | some row => exact ⟨.dispatched row, hpending, hdispatched⟩
  | some batch =>
      have hdispatched : db.dispatchedBatches[i]? = none := by simpa [hpending] using hboth
      exact ⟨.pending batch, hpending, hdispatched⟩

theorem Sound.start (done : FinalizationDone)
    (hdb : ∀ i, ¬(i ∈ db.pendingBatches ∧ i ∈ db.dispatchedBatches)) :
    (System.start db done).Sound := by
  have hphased := start_phased done hdb
  have hgate := (Process.start_performs db done).2.2
  have hspawned : (Process.start db done).state.spawned =
      Process.resumeWorkers (Process.start db done).state.accumulator
        (Process.start db done).db := rfl
  have hbatches : (System.start db done).live.map Worker.batch =
      resumedBatches (Process.start db done).state.spawned := by
    simp only [System.start, List.map_map]
    exact List.zipIdx_map_fst 0 _
  have hdistinct : ((System.start db done).live.map Worker.batch).Nodup := by
    rw [hbatches, hspawned]
    exact nodup_resumedBatches _ _
  have hresumed : ∀ worker ∈ (System.start db done).live, worker.resumed = true := by
    intro worker hworker
    obtain ⟨_, _, rfl⟩ := List.mem_map.mp hworker
    rfl
  refine ⟨hphased, hdistinct, ?_, ?_, ?_, ?_⟩
  · intro batch hbatch
    rw [show (System.start db done).process = Process.start db done from rfl, hgate] at hbatch
    cases hbatch
  · intro worker hworker hkind
    rw [hresumed worker hworker] at hkind
    cases hkind
  · intro worker hworker _ batch hpending
    have hbatch : worker.batch ∈ resumedBatches (Process.start db done).state.spawned :=
      hbatches ▸ List.mem_map_of_mem hworker
    rw [hspawned] at hbatch
    obtain ⟨row, hrow⟩ := mem_resumedBatches _ _ hbatch
    cases hpending.2.symm.trans hrow
  · intro worker hworker _ _ _
    refine getElem?_dispatchers (fun other hother hbatch => ?_) (.inr ⟨worker, hworker, rfl⟩)
    rw [eq_of_batch hdistinct hother hworker hbatch]

end Start

end System

/-- If a worker delivers an outcome it opens the gate only if the gate is held for it, and
it takes back a dispatch only if it made it. -/
def System.ActsForItself (s : System) (worker : Worker) : Prop :=
  ∀ now outcome,
    (s.process.state.gateAfter (.dispatchDone worker.batch outcome) ≠
        s.process.state.dispatchingBatch → s.gateHolder = some worker.id) ∧
      ∀ i, i ∈ s.process.state.accumulator.dispatched →
        i ∈ (s.process.turn now
          (.dispatchDone worker.batch outcome)).state.accumulator.batches →
        s.dispatcher[i]? = some worker.id

theorem System.Sound.actsForItself {s : System} (h : s.Sound) {worker : Worker}
    (hworker : worker ∈ s.live) : s.ActsForItself worker := by
  intro now outcome
  constructor
  · intro hgate
    have hheld : s.process.state.dispatchingBatch = some worker.batch := by
      by_contra hother
      exact hgate (by rw [gateAfter, clearGate, if_neg hother])
    obtain ⟨holder, hholder, hbatch, _, hid⟩ := h.held worker.batch hheld
    rw [hid, eq_of_batch h.distinct hholder hworker hbatch]
  · intro i hdispatched hpending
    obtain ⟨phase, hphase⟩ := h.phased i
    rw [ExtTreeMap.mem_iff_isSome_getElem?] at hdispatched hpending
    have hbatch : worker.batch = i := by
      by_contra hne
      rw [(s.process.turn_frame now (.dispatchDone worker.batch outcome) hne).1] at hpending
      cases phase <;> simp_all [BatchAccumulator.InPhase]
    subst hbatch
    cases phase with
    | absent | pending => simp_all [BatchAccumulator.InPhase]
    | dispatched row =>
        refine h.dispatcher worker hworker _ hphase fun hexternal => ?_
        -- an external dispatch is not taken back
        obtain ⟨op, hop⟩ : ∃ op, s.process.state.actions (.dispatchDone worker.batch outcome) =
            [.operation op] := by
          cases outcome <;> exact ⟨_, rfl⟩
        obtain ⟨next, hstep, hnext⟩ := op.apply_phase hphase
        rw [Process.turn_accumulator, hop] at hpending
        cases hstep <;> simp_all [BatchAccumulator.InPhase, Action.run, Action.apply]

/-- Over every orderly run there is at most one worker for each batch, and outcomes concern
the worker that delivers them only. -/
theorem one_worker_per_batch {db : Db} {done : FinalizationDone} {events : List SystemEvent}
    {s : System} (hdb : ∀ i, ¬(i ∈ db.pendingBatches ∧ i ∈ db.dispatchedBatches))
    (hrun : Run System.OrderlyStep (System.start db done) events s) :
    (s.live.map Worker.batch).Nodup ∧ ∀ worker ∈ s.live, s.ActsForItself worker := by
  have hsound : s.Sound := hrun.invariant System.Sound.step (System.Sound.start done hdb)
  exact ⟨hsound.distinct, fun worker hworker => hsound.actsForItself hworker⟩

section Sample

/-- Batch 1 was dispatched by an earlier process, batch 2 is pending and signed. -/
private def dispatchedFirst : Db :=
  { Db.empty with
    dispatchedBatches := (∅ : ExtTreeMap Nat DispatchedBatch).insert 1
      ⟨1, 1, .ofNat 1, 0, some 7, some 100, some 10⟩
    pendingBatches := (∅ : ExtTreeMap Nat PendingBatch).insert 2 ⟨2, 2, true⟩
    batchSignatures := ((∅ : ExtTreeMap Nat Nitro.SubmitBatchResponse).insert 1
      ⟨[], [], [7]⟩).insert 2 ⟨[], [], [8]⟩ }

/-- A worker for batch 2 is spawned beside the resume worker of batch 1. -/
theorem one_worker_per_batch_sample :
    let fresh : Worker := ⟨1, 2, false⟩
    let bump : RbfBumpEvent := .initialBroadcast (.ofNat 2) 8 100 10
    let s := (System.start dispatchedFirst .noOp).turn 1
      (.blockResult ⟨3, ⟨3, .zero, .zero, .zero 64⟩⟩)
    let t := (s.noteBroadcast fresh bump).turn 2 (.rbfBump 2 bump)
    t.live.map Worker.batch = [1, 2] ∧ t.ActsForItself ⟨0, 1, true⟩ ∧ t.ActsForItself fresh := by
  intro fresh bump s t
  have hdb : ∀ i, ¬(i ∈ dispatchedFirst.pendingBatches ∧
      i ∈ dispatchedFirst.dispatchedBatches) := by
    intro i
    simp only [dispatchedFirst, ExtTreeMap.mem_insert, ExtTreeMap.not_mem_empty, or_false,
      Nat.compare_eq_eq]
    omega
  have hlive : s.live = [⟨0, 1, true⟩, fresh] := by decide +kernel
  have hfirst : (System.start dispatchedFirst .noOp).OrderlyStep
      (.message 1 (.blockResult ⟨3, ⟨3, .zero, .zero, .zero 64⟩⟩)) s :=
    ⟨⟨by decide +kernel, rfl⟩, trivial⟩
  have hsecond : s.OrderlyStep (.bump 2 fresh bump) t := by
    refine ⟨⟨by decide +kernel, if_pos (by decide +kernel)⟩, ?_⟩
    simp [System.Orderly, bump, hlive]
  obtain ⟨_, hacts⟩ := one_worker_per_batch hdb (.cons hfirst (.cons hsecond (.nil t)))
  have hlive' : t.live = [⟨0, 1, true⟩, fresh] := by decide +kernel
  exact ⟨by rw [hlive']; rfl, hacts _ (by simp [hlive']), hacts _ (by simp [hlive'])⟩

/-- The finalization check sees that the transaction of the resume worker reverted, and a
second worker for batch 1 is spawned. When the resume worker fails in turn, it takes back
the dispatch of the second worker and opens its gate. -/
theorem second_worker_for_batch :
    let before := [SystemEvent.message 1 (.finalizationDone (.observed
        [(1, .ofNat 1, .reverted .oog)])),
      .bump 2 ⟨1, 1, false⟩ (.initialBroadcast (.ofNat 2) 8 100 10)]
    let run := fun events => List.foldlM System.step (System.start dispatchedFirst .noOp) events
    (run before).map (fun s => (s.live, s.gateHolder, s.dispatcher[1]?,
        s.process.state.dispatchingBatch, s.process.state.accumulator.dispatched.contains 1)) =
      some ([⟨0, 1, true⟩, ⟨1, 1, false⟩], some 1, some 1, some 1, true) ∧
    (run (before ++ [.outcome 3 ⟨0, 1, true⟩ .failed])).map (fun s =>
        (s.live, s.process.state.dispatchingBatch,
          s.process.state.accumulator.batches.contains 1)) =
      some ([⟨1, 1, false⟩], none, true) := by
  decide +kernel

end Sample

end FluentStf.Orchestrator
