import FluentStf.Orchestrator.Turn

/-! A worker reports its broadcasts on one channel and its outcome on another. The main
loop may take the outcome first. -/
namespace FluentStf.Orchestrator

section Channels

/-- What arrived on the bump channel from the worker of batch `i`, in order. -/
def bumpsOf (i : Nat) (events : List (Nat × Message)) : List RbfBumpEvent :=
  events.filterMap fun event => match event.2 with
    | .rbfBump j bump => if j = i then some bump else none
    | _ => none

/-- What arrived on the outcome channel. -/
def outcomesOf (i : Nat) (events : List (Nat × Message)) : List DispatchOutcome :=
  events.filterMap fun event => match event.2 with
    | .dispatchDone j outcome => if j = i then some outcome else none
    | _ => none

@[simp] theorem bumpsOf_append (i : Nat) (first second : List (Nat × Message)) :
    bumpsOf i (first ++ second) = bumpsOf i first ++ bumpsOf i second := by
  simp [bumpsOf]

variable {events : List (Nat × Message)} {outcome : DispatchOutcome}

theorem outcomesOf_tail {i : Nat} {event : Nat × Message}
    (h : outcomesOf i (event :: events) = []) : outcomesOf i events = [] := by
  rw [outcomesOf, List.filterMap_cons] at h
  split at h
  · exact h
  · cases h

theorem ne_of_outcomesOf {i j now : Nat}
    (h : outcomesOf i ((now, .dispatchDone j outcome) :: events) = []) : j ≠ i := by
  rintro rfl
  simp [outcomesOf] at h

theorem mem_outcomesOf {i now : Nat} (h : (now, .dispatchDone i outcome) ∈ events) :
    outcome ∈ outcomesOf i events := by
  rw [outcomesOf, List.mem_filterMap]
  exact ⟨_, h, by simp⟩

/-- The only outcome splits the messages. -/
theorem outcomesOf_eq_singleton {i : Nat} (h : outcomesOf i events = [outcome]) :
    ∃ first now second, events = first ++ (now, .dispatchDone i outcome) :: second ∧
      outcomesOf i first = [] ∧ outcomesOf i second = [] := by
  obtain ⟨first, ⟨now, message⟩, second, rfl, hfirst, hmessage, hsecond⟩ :=
    List.filterMap_eq_cons_iff.mp h
  have heq : message = .dispatchDone i outcome := by
    cases message with
    | dispatchDone j other => simp_all
    | _ => cases hmessage
  subst heq
  exact ⟨first, now, second, rfl, List.filterMap_eq_nil_iff.mpr hfirst, hsecond⟩

/-- The transaction of the last broadcast. -/
def lastTx (txHash : B256) (bumps : List RbfBumpEvent) : B256 :=
  bumps.foldl (fun txHash bump => match bump with
    | .bumped txHash _ _ => txHash
    | _ => txHash) txHash

end Channels

/-- Transaction and L1 block of a dispatched batch; nothing while it is pending. -/
abbrev View := Option (B256 × Nat)

namespace View

def afterBump (view : View) : RbfBumpEvent → View
  | .initialBroadcast txHash _ _ _ => view <|> some (txHash, 0)
  | .bumped txHash _ _ => view.map fun row => (txHash, row.2)
  | .capReached _ => view

def afterOutcome (view : View) : DispatchOutcome → View
  | .submitted _ l1Block => view.map fun row => (row.1, l1Block)
  | _ => view

theorem foldl_afterBump (bumps : List RbfBumpEvent) (txHash : B256) (l1Block : Nat) :
    bumps.foldl afterBump (some (txHash, l1Block)) = some (lastTx txHash bumps, l1Block) := by
  induction bumps generalizing txHash with
  | nil => rfl
  | cons bump bumps ih => cases bump <;> exact ih _

end View

namespace BatchAccumulator

/-- The accumulator holds batch `i` as seen. -/
def Shows (acc : BatchAccumulator) (i : Nat) (view : View) : Prop :=
  ∃ phase, acc.InPhase i phase ∧ phase ≠ .absent ∧
    view = match phase with
      | .dispatched row => some (row.txHash, row.l1Block)
      | _ => none

variable {acc acc' : BatchAccumulator} {i : Nat} {view : View}

theorem Shows.congr (h : acc.Shows i view) (hbatches : acc'.batches[i]? = acc.batches[i]?)
    (hdispatched : acc'.dispatched[i]? = acc.dispatched[i]?) : acc'.Shows i view := by
  obtain ⟨phase, hphase, hrest⟩ := h
  exact ⟨phase, hphase.congr hbatches hdispatched, hrest⟩

/-- A batch that is seen without a transaction is pending, one with a transaction is
dispatched. -/
theorem shows_iff : acc.Shows i view ↔
    (∃ batch, acc.InPhase i (.pending batch) ∧ view = none) ∨
      ∃ row, acc.InPhase i (.dispatched row) ∧ view = some (row.txHash, row.l1Block) := by
  constructor
  · rintro ⟨phase, hphase, hknown, hview⟩
    cases phase with
    | absent => exact absurd rfl hknown
    | pending batch => exact .inl ⟨batch, hphase, hview⟩
    | dispatched row => exact .inr ⟨row, hphase, hview⟩
  · rintro (⟨batch, hphase, hview⟩ | ⟨row, hphase, hview⟩)
    · exact ⟨.pending batch, hphase, by simp, hview⟩
    · exact ⟨.dispatched row, hphase, by simp, hview⟩

theorem Shows.rowHolds_iff (h : acc.Shows i view) (txHash : B256) (l1Block : Nat) :
    RowHolds acc.dispatched i txHash l1Block ↔ view = some (txHash, l1Block) := by
  obtain ⟨batch, hphase, rfl⟩ | ⟨row, hphase, rfl⟩ := shows_iff.mp h
  · simp [RowHolds, hphase.2]
  · simp [RowHolds, hphase.2]

theorem Shows.markDispatched (h : acc.Shows i view) (txHash : B256) (nonce fee tip : Nat) :
    (acc.markDispatched i txHash 0 nonce fee tip).1.Shows i
      (view.afterBump (.initialBroadcast txHash nonce fee tip)) := by
  obtain ⟨batch, hphase, rfl⟩ | ⟨row, hphase, rfl⟩ := shows_iff.mp h
  · refine shows_iff.mpr (.inr
      ⟨⟨batch.fromBlock, batch.toBlock, txHash, 0, some nonce, some fee, some tip⟩, ?_, rfl⟩)
    simp [BatchAccumulator.markDispatched, hphase.1, InPhase]
  · refine shows_iff.mpr (.inr ⟨row, ?_, rfl⟩)
    simpa [BatchAccumulator.markDispatched, hphase.1] using hphase

theorem Shows.recordRbfBump (h : acc.Shows i view) (txHash : B256) (fee tip : Nat) :
    (acc.recordRbfBump i txHash fee tip).1.Shows i (view.afterBump (.bumped txHash fee tip)) := by
  obtain ⟨batch, hphase, rfl⟩ | ⟨row, hphase, rfl⟩ := shows_iff.mp h
  · refine shows_iff.mpr (.inl ⟨batch, ⟨hphase.1, ?_⟩, rfl⟩)
    simp [BatchAccumulator.recordRbfBump, hphase.2]
  · refine shows_iff.mpr (.inr ⟨{ row with
      txHash := txHash, maxFeePerGas := some fee, maxPriorityFeePerGas := some tip },
      ⟨hphase.1, ?_⟩, rfl⟩)
    simp [BatchAccumulator.recordRbfBump, hphase.2]

theorem Shows.recordDispatchedL1Block (h : acc.Shows i view) (txHash : B256) (l1Block : Nat) :
    (acc.recordDispatchedL1Block i l1Block).1.Shows i
      (view.afterOutcome (.submitted txHash l1Block)) := by
  obtain ⟨batch, hphase, rfl⟩ | ⟨row, hphase, rfl⟩ := shows_iff.mp h
  · refine shows_iff.mpr (.inl ⟨batch, ⟨hphase.1, ?_⟩, rfl⟩)
    simp [BatchAccumulator.recordDispatchedL1Block, hphase.2]
  · refine shows_iff.mpr (.inr ⟨{ row with l1Block := l1Block }, ⟨hphase.1, ?_⟩, rfl⟩)
    simp [BatchAccumulator.recordDispatchedL1Block, hphase.2]

end BatchAccumulator

/-- The message comes from the worker of batch `i` or is not about the batch. -/
def Message.FromWorker (i : Nat) (message : Message) : Prop :=
  message.About i →
    (∃ bump, message = .rbfBump i bump) ∨ ∃ tx l1, message = .dispatchDone i (.submitted tx l1)

def View.after (i : Nat) (view : View) : Message → View
  | .rbfBump j bump => if j = i then view.afterBump bump else view
  | .dispatchDone j outcome => if j = i then view.afterOutcome outcome else view
  | _ => view

namespace Process

variable {p : Process} {i : Nat} {view : View}

theorem turn_shows (h : p.state.accumulator.Shows i view) (now : Nat) {message : Message}
    (hmessage : message.FromWorker i) :
    (p.turn now message).state.accumulator.Shows i (view.after i message) := by
  by_cases habout : message.About i
  · obtain ⟨bump, rfl⟩ | ⟨tx, l1, rfl⟩ := hmessage habout
    · rw [turn_accumulator, View.after, if_pos rfl]
      cases bump with
      | initialBroadcast => exact h.markDispatched ..
      | bumped => exact h.recordRbfBump ..
      | capReached => exact h
    · rw [turn_accumulator, View.after, if_pos rfl]
      exact h.recordDispatchedL1Block ..
  · have hview : view.after i message = view := by
      cases message with
      | rbfBump j | dispatchDone j => exact if_neg habout
      | _ => rfl
    obtain ⟨hbatches, hdispatched, _⟩ := p.turn_frame now message habout
    rw [hview]
    exact h.congr hbatches hdispatched

variable {events : List (Nat × Message)}

theorem turns_shows (h : p.state.accumulator.Shows i view)
    (hevents : ∀ event ∈ events, event.2.FromWorker i) :
    (p.turns events).state.accumulator.Shows i
      (events.foldl (fun view event => view.after i event.2) view) := by
  induction events generalizing p view with
  | nil => exact h
  | cons event events ih =>
      exact ih (turn_shows h event.1 (hevents event (.head _)))
        fun e he => hevents e (.tail _ he)

/-- The batches of the workers that are spawned during some turns. -/
def dispatches (p : Process) : List (Nat × Message) → List Nat
  | [] => []
  | event :: events =>
      let q := p.turn event.1 event.2
      OrchestratorState.freshWorkers q.state.spawned ++ q.dispatches events

theorem dispatches_append (p : Process) (first second : List (Nat × Message)) :
    p.dispatches (first ++ second) =
      p.dispatches first ++ (p.turns first).dispatches second := by
  induction first generalizing p with
  | nil => rfl
  | cons event first ih =>
      rw [List.cons_append, dispatches, ih, dispatches, List.append_assoc]
      rfl

/-- While the gate is held for a batch, no worker is spawned. -/
theorem turns_gate (hgate : p.state.dispatchingBatch = some i) (hevents : outcomesOf i events = [])
    :
    (p.turns events).state.dispatchingBatch = some i ∧ p.dispatches events = [] := by
  induction events generalizing p with
  | nil => exact ⟨hgate, rfl⟩
  | cons event events ih =>
      have hkept : p.state.gateAfter event.2 = some i := by
        obtain ⟨now, message⟩ := event
        cases message with
        | dispatchDone j outcome =>
            have hij : i ≠ j := (ne_of_outcomesOf hevents).symm
            simp [OrchestratorState.gateAfter, OrchestratorState.clearGate, hgate, hij]
        | _ => exact hgate
      have hrest : outcomesOf i events = [] := outcomesOf_tail hevents
      obtain ⟨hnext, hworkers⟩ | ⟨_, _, hopen, _⟩ := p.turn_gated event.1 event.2
      · obtain ⟨hlast, hnone⟩ := ih (hnext.trans hkept) hrest
        exact ⟨hlast, by rw [dispatches, hworkers, hnone]; rfl⟩
      · rw [hkept] at hopen
        cases hopen

/-- No worker is spawned for a dispatched batch. -/
theorem turn_not_dispatches {row : B256 × Nat} {now : Nat} {message : Message}
    (h : (p.turn now message).state.accumulator.Shows i (some row)) :
    i ∉ OrchestratorState.freshWorkers (p.turn now message).state.spawned := by
  intro hworker
  obtain ⟨_, hnone⟩ | ⟨j, signature, _, _, hfirst, _, hworkers⟩ := p.turn_gated now message
  · rw [hnone] at hworker
    cases hworker
  · rw [hworkers, List.nil_append, List.mem_singleton] at hworker
    subst hworker
    obtain ⟨⟨batch, hbatch⟩, _⟩ := BatchAccumulator.firstSequentialSigned_some hfirst
    obtain ⟨phase, hphase, _, hview⟩ := h
    cases phase with
    | absent | pending => cases hview
    | dispatched =>
        rw [hphase.1] at hbatch
        cases hbatch

theorem turns_not_dispatches {row : B256 × Nat} (h : p.state.accumulator.Shows i (some row))
    (hevents : ∀ event ∈ events, event.2.FromWorker i) : i ∉ p.dispatches events := by
  induction events generalizing p row with
  | nil => simp [dispatches]
  | cons event events ih =>
      have hnext := turn_shows h event.1 (hevents event (.head _))
      have hsome : ∃ row', View.after i (some row) event.2 = some row' := by
        obtain ⟨now, message⟩ := event
        cases message with
        | rbfBump j bump =>
            rw [View.after]
            split
            · cases bump <;> exact ⟨_, rfl⟩
            · exact ⟨_, rfl⟩
        | dispatchDone j outcome =>
            rw [View.after]
            split
            · cases outcome <;> exact ⟨_, rfl⟩
            · exact ⟨_, rfl⟩
        | _ => exact ⟨_, rfl⟩
      obtain ⟨row', hrow'⟩ := hsome
      rw [hrow'] at hnext
      rw [dispatches, List.mem_append, not_or]
      exact ⟨turn_not_dispatches hnext,
        ih hnext fun e he => hevents e (.tail _ he)⟩

end Process

/-- Without an outcome only the bumps count. -/
theorem View.foldl_after {i : Nat} {events : List (Nat × Message)}
    (hevents : outcomesOf i events = []) (view : View) :
    events.foldl (fun view event => view.after i event.2) view =
      (bumpsOf i events).foldl View.afterBump view := by
  induction events generalizing view with
  | nil => rfl
  | cons event events ih =>
      obtain ⟨now, message⟩ := event
      have hrest : outcomesOf i events = [] := outcomesOf_tail hevents
      rw [List.foldl_cons, ih hrest]
      cases message with
      | rbfBump j bump => by_cases hij : j = i <;> simp [bumpsOf, View.after, hij]
      | dispatchDone j outcome =>
          have hij : j ≠ i := ne_of_outcomesOf hevents
          simp [bumpsOf, View.after, hij]
      | _ => rfl

/-- The first message of the worker that is handled is a broadcast, not the outcome. -/
def broadcastFirst (i : Nat) : List (Nat × Message) → Bool
  | [] => false
  | (_, .rbfBump j _) :: events => j = i || broadcastFirst i events
  | (_, .dispatchDone j _) :: events => j ≠ i && broadcastFirst i events
  | _ :: events => broadcastFirst i events

theorem broadcastFirst_append {i : Nat} {first second : List (Nat × Message)}
    (hfirst : outcomesOf i first = []) (now : Nat) (outcome : DispatchOutcome) :
    broadcastFirst i (first ++ (now, .dispatchDone i outcome) :: second) ↔
      bumpsOf i first ≠ [] := by
  induction first with
  | nil => simp [broadcastFirst, bumpsOf]
  | cons event first ih =>
      obtain ⟨now, message⟩ := event
      have hrest : outcomesOf i first = [] := outcomesOf_tail hfirst
      cases message with
      | rbfBump j bump =>
          by_cases hij : j = i
          · simp [broadcastFirst, bumpsOf, hij]
          · simpa [broadcastFirst, bumpsOf, hij] using ih hrest
      | dispatchDone j outcome =>
          have hij : j ≠ i := ne_of_outcomesOf hfirst
          simpa [broadcastFirst, bumpsOf, hij] using ih hrest
      | _ => exact ih hrest

/-- A worker of batch `i` reports its broadcasts and then the outcome of the last of them.
The row of the batch ends as the outcome says, and no second worker is spawned, exactly if
the first broadcast is handled before the outcome. -/
theorem landed_transaction_recorded_iff {p q : Process} {events : List (Nat × Message)} {i : Nat}
    {batch : PendingBatch} {txHash tx : B256} {nonce fee tip l1Block : Nat}
    {bumps : List RbfBumpEvent}
    (hpending : p.state.accumulator.InPhase i (.pending batch))
    (hgate : p.state.dispatchingBatch = some i) (hrun : Run Process.Step p events q)
    (hbumps : bumpsOf i events = .initialBroadcast txHash nonce fee tip :: bumps)
    (houtcome : outcomesOf i events = [.submitted tx l1Block])
    (hothers : ∀ event ∈ events, event.2.About i →
      (∃ bump, event.2 = .rbfBump i bump) ∨ ∃ outcome, event.2 = .dispatchDone i outcome)
    (htx : tx = lastTx txHash bumps) (hl1 : l1Block ≠ 0) :
    RowHolds q.state.accumulator.dispatched i tx l1Block ∧ i ∉ p.dispatches events ↔
      broadcastFirst i events := by
  obtain ⟨first, now, second, rfl, hfirst, hsecond⟩ := outcomesOf_eq_singleton houtcome
  obtain rfl := Process.turns_eq_of_run hrun
  rw [broadcastFirst_append hfirst]
  have hfrom : ∀ event ∈ first ++ (now, .dispatchDone i (.submitted tx l1Block)) :: second,
      event.2.FromWorker i := by
    intro event hevent habout
    obtain ⟨time, message⟩ := event
    refine (hothers _ hevent habout).imp_right ?_
    rintro ⟨outcome, rfl⟩
    have hmem := mem_outcomesOf hevent
    rw [houtcome, List.mem_singleton] at hmem
    exact ⟨tx, l1Block, by rw [hmem]⟩
  have hstart : p.state.accumulator.Shows i none :=
    BatchAccumulator.shows_iff.mpr (.inl ⟨batch, hpending, rfl⟩)
  have hend := Process.turns_shows hstart hfrom
  rw [hend.rowHolds_iff, List.foldl_append, View.foldl_after hfirst, List.foldl_cons,
    View.foldl_after hsecond, View.after, if_pos rfl]
  have hsplit : bumpsOf i first ++ bumpsOf i second =
      .initialBroadcast txHash nonce fee tip :: bumps := by
    rw [← hbumps, bumpsOf_append]
    rfl
  cases hb : bumpsOf i first with
  | nil =>
      -- the outcome finds no row to patch, so the block stays at its placeholder
      rw [hb, List.nil_append] at hsplit
      have hrow : (bumpsOf i second).foldl View.afterBump none = some (lastTx txHash bumps, 0) := by
        rw [hsplit]
        exact View.foldl_afterBump bumps txHash 0
      have hview : View.afterOutcome none (.submitted tx l1Block) = none := rfl
      rw [List.foldl_nil, hview, hrow]
      simp [Ne.symm hl1]
  | cons bump rest =>
      rw [hb, List.cons_append] at hsplit
      obtain ⟨rfl, hbumps'⟩ := List.cons.inj hsplit
      have hrow : View.afterOutcome (List.foldl View.afterBump none
          (.initialBroadcast txHash nonce fee tip :: rest)) (.submitted tx l1Block) =
          some (lastTx txHash rest, l1Block) :=
        congrArg (View.afterOutcome · _) (View.foldl_afterBump rest txHash 0)
      have hmiddle : (p.turns first).state.accumulator.Shows i (some (lastTx txHash rest, 0)) := by
        have h := Process.turns_shows hstart fun event hevent =>
          hfrom event (List.mem_append_left _ hevent)
        rw [View.foldl_after hfirst, hb] at h
        exact View.foldl_afterBump rest txHash 0 ▸ h
      have hworkers : i ∉ p.dispatches
          (first ++ (now, .dispatchDone i (.submitted tx l1Block)) :: second) := by
        rw [Process.dispatches_append, (Process.turns_gate hgate hfirst).2, List.nil_append]
        exact Process.turns_not_dispatches hmiddle fun event hevent =>
          hfrom event (List.mem_append_right _ hevent)
      rw [hrow, View.foldl_afterBump, htx, ← hbumps']
      exact iff_of_true ⟨by simp [lastTx], by rwa [htx, ← hbumps'] at hworkers⟩ (by simp)

/-- Broadcast and bump are handled before the outcome, between messages about another
batch. -/
theorem landed_transaction_recorded_sample :
    let events := [(3, .rbfBump 1 (.initialBroadcast (.ofNat 1) 7 100 10)),
      (4, .l1Event (.batchCommitted 2 2 3)), (5, .dispatchDone 1 (.submitted (.ofNat 2) 50)),
      (6, Message.rbfBump 1 (.bumped (.ofNat 2) 120 12))]
    let q := Process.dispatchingFirst.turns events
    RowHolds q.state.accumulator.dispatched 1 (.ofNat 2) 50 ∧
      1 ∉ Process.dispatchingFirst.dispatches events := by
  intro events q
  have hpending : Process.dispatchingFirst.state.accumulator.InPhase 1 (.pending ⟨1, 1, true⟩) := by
    constructor <;> decide +kernel
  have hrun : Run Process.Step .dispatchingFirst events q := Process.run_turns (by decide +kernel)
  have hl1 : (50 : Nat) ≠ 0 := by decide
  refine (landed_transaction_recorded_iff hpending (by decide +kernel) hrun rfl rfl ?_ rfl hl1).mpr
    rfl
  simp [events, Message.About]

/-- The outcome is handled first. The batch is still pending then, so a second worker is
spawned for it, and the block of the transaction that landed is never stored. -/
theorem landed_transaction_forgotten :
    let events := [(3, .dispatchDone 1 (.submitted (.ofNat 1) 50)),
      (4, Message.rbfBump 1 (.initialBroadcast (.ofNat 1) 7 100 10))]
    let q := Process.dispatchingFirst.turns events
    q.state.accumulator.dispatched[1]? = some ⟨1, 1, .ofNat 1, 0, some 7, some 100, some 10⟩ ∧
      Process.dispatchingFirst.dispatches events = [1] := by
  decide +kernel

end FluentStf.Orchestrator
