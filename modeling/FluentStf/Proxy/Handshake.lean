import FluentStf.Primitives
import FluentStf.Runs

/-! The handshake between the proxy and the enclave. The enclave generates its key at the
first handshake and keeps it. The proxy stores a key for attestation only if the enclave says
that the key is new, so the key is lost for attestation if that one answer does not arrive or
is not stored. -/
namespace FluentStf.Proxy

structure EnclaveIdentity where
  publicKey : Bytes
  attestation : Bytes
deriving DecidableEq

/-- The answers to a handshake. -/
inductive EnclaveResponse where
  | keyGenerated (identity : EnclaveIdentity)
  | alreadyInitialized (identity : EnclaveIdentity)
  | error
deriving DecidableEq

/-- A connection to the enclave, with the request or the answer that was not read yet. -/
inductive Connection where
  | request
  | response (response : EnclaveResponse)
  | closed
deriving DecidableEq

/-- Where `ensure_handshake` is. The handshake lock lets only one call pass at a time. -/
inductive HandshakePhase where
  | idle
  | waiting (connection : Nat)
  /-- A new key was received, its row is not written yet. -/
  | storing (identity : EnclaveIdentity)
deriving DecidableEq

/-- A background task that proves an attestation and submits the proof to L1. -/
structure ProveTask where
  identity : EnclaveIdentity
  /-- The submission succeeded, the row is not deleted yet. -/
  submitted : Bool
deriving DecidableEq

/-- The proxy, its database and the enclave behind it. -/
structure State where
  /-- The key of the enclave. -/
  identity : Option EnclaveIdentity
  connections : List Connection
  phase : HandshakePhase
  tasks : List ProveTask
  /-- The table of the database, with the public key as primary key. -/
  pendingAttestation : List EnclaveIdentity
  /-- The keys whose attestation was submitted successfully. -/
  submitted : List Bytes
deriving DecidableEq

def State.start : State := ⟨none, [], .idle, [], [], []⟩

/-- The steps of proxy and enclave, with all that may fail in between. -/
inductive Event where
  | sendHandshake
  /-- The enclave takes a request, with the key that it would generate. -/
  | answerHandshake (connection : Nat) (generated : Option EnclaveIdentity)
  | receiveResponse
  /-- The call ends without an answer. -/
  | loseResponse
  /-- The row of a new key is written, unless the statement fails. -/
  | storeKey (inserted : Bool)
  | restartProxy
  | restartEnclave
  | submitAttestation (task : Nat)
  | finishTask (task : Nat) (deleted : Bool)
deriving DecidableEq

/-- How a call of `ensure_handshake` ends. -/
inductive HandshakeResult where
  | ok
  | error
deriving DecidableEq

def Pending (rows : List EnclaveIdentity) (publicKey : Bytes) : Prop :=
  ∃ row ∈ rows, row.publicKey = publicKey

instance (rows : List EnclaveIdentity) (publicKey : Bytes) : Decidable (Pending rows publicKey) :=
  inferInstanceAs (Decidable (∃ row ∈ rows, row.publicKey = publicKey))

/-- A row with the same key is kept. -/
def insertPendingAttestation (rows : List EnclaveIdentity) (identity : EnclaveIdentity) :
    List EnclaveIdentity :=
  if Pending rows identity.publicKey then rows else rows ++ [identity]

def deletePendingAttestation (rows : List EnclaveIdentity) (publicKey : Bytes) :
    List EnclaveIdentity :=
  rows.filter fun row => row.publicKey ≠ publicKey

theorem pending_insert {rows : List EnclaveIdentity} {identity : EnclaveIdentity}
    {publicKey : Bytes} :
    Pending (insertPendingAttestation rows identity) publicKey ↔
      Pending rows publicKey ∨ identity.publicKey = publicKey := by
  rw [insertPendingAttestation]
  split
  · next h =>
      refine ⟨.inl, fun hor => hor.elim id ?_⟩
      rintro rfl
      exact h
  · simp [Pending, or_and_right, exists_or]

theorem pending_delete {rows : List EnclaveIdentity} {deleted publicKey : Bytes} :
    Pending (deletePendingAttestation rows deleted) publicKey ↔
      Pending rows publicKey ∧ publicKey ≠ deleted := by
  simp only [Pending, deletePendingAttestation, List.mem_filter, decide_eq_true_eq]
  constructor
  · rintro ⟨row, ⟨hrow, hne⟩, rfl⟩
    exact ⟨⟨row, hrow, rfl⟩, hne⟩
  · rintro ⟨⟨row, hrow, rfl⟩, hne⟩
    exact ⟨row, ⟨hrow, hne⟩, rfl⟩

/-- The enclave answers a handshake. A key that it generates stays, whether or not the answer
can be sent. -/
def answer (s : State) (connection : Nat) (generated : Option EnclaveIdentity) : State :=
  match s.identity, generated with
  | some identity, _ =>
      { s with connections :=
          s.connections.set connection (.response (.alreadyInitialized identity)) }
  | none, some identity =>
      { s with
        identity := some identity
        connections := s.connections.set connection (.response (.keyGenerated identity)) }
  | none, none => { s with connections := s.connections.set connection (.response .error) }

/-- `ensure_handshake` after the answer of the enclave. -/
def receive (s : State) : EnclaveResponse → State × Option HandshakeResult
  | .keyGenerated identity => ({ s with phase := .storing identity }, none)
  | .alreadyInitialized _ => ({ s with phase := .idle }, some .ok)
  | .error => ({ s with phase := .idle }, some .error)

section Step

variable (attestationConfigured : Bool)

/-- `resume_all_pending` and the tasks spawned for new keys. -/
def proveTasks (rows : List EnclaveIdentity) : List ProveTask :=
  if attestationConfigured then rows.map fun row => ⟨row, false⟩ else []

/-- One step of the two processes, if it can be made now, and the result of the call of
`ensure_handshake` that it ends. -/
def step (s : State) : Event → Option (State × Option HandshakeResult)
  | .sendHandshake => match s.phase with
      | .idle => some ({ s with
          connections := s.connections ++ [.request]
          phase := .waiting s.connections.length }, none)
      | _ => none
  | .answerHandshake connection generated => match s.connections[connection]? with
      | some .request => some (answer s connection generated, none)
      | _ => none
  | .receiveResponse => match s.phase with
      | .waiting connection => match s.connections[connection]? with
          | some (.response response) =>
              some (receive { s with connections := s.connections.set connection .closed } response)
          | _ => none
      | _ => none
  | .loseResponse => match s.phase with
      | .waiting _ => some ({ s with phase := .idle }, some .error)
      | _ => none
  | .storeKey inserted => match s.phase with
      | .storing identity => some ({ s with
          phase := .idle
          pendingAttestation :=
            if inserted then insertPendingAttestation s.pendingAttestation identity
            else s.pendingAttestation
          tasks := s.tasks ++ proveTasks attestationConfigured [identity] }, some .ok)
      | _ => none
  | .restartProxy => some ({ s with
      phase := .idle
      tasks := proveTasks attestationConfigured s.pendingAttestation }, none)
  | .restartEnclave => some ({ s with identity := none }, none)
  | .submitAttestation n => match s.tasks[n]? with
      | some ⟨identity, false⟩ => some ({ s with
          tasks := s.tasks.set n ⟨identity, true⟩
          submitted := s.submitted ++ [identity.publicKey] }, none)
      | _ => none
  | .finishTask n deleted => match s.tasks[n]? with
      | some ⟨identity, true⟩ => some ({ s with
          tasks := s.tasks.eraseIdx n
          pendingAttestation :=
            if deleted then deletePendingAttestation s.pendingAttestation identity.publicKey
            else s.pendingAttestation }, none)
      | _ => none

/-- The steps with the results of the calls. -/
def Step (s : State) (event : Event × Option HandshakeResult) (t : State) : Prop :=
  step attestationConfigured s event.1 = some (t, event.2)

end Step

namespace State

/-- The key has a row or its attestation was submitted. -/
def Recorded (s : State) (identity : EnclaveIdentity) : Prop :=
  Pending s.pendingAttestation identity.publicKey ∨ identity.publicKey ∈ s.submitted

/-- The key that the enclave holds, if any, is queued for attestation or attested. -/
def Queued (s : State) : Prop := ∀ identity, s.identity = some identity → s.Recorded identity

/-- The proxy has yet to read the answer with the new key, or to store it. -/
def InFlight (s : State) (identity : EnclaveIdentity) : Prop :=
  s.phase = .storing identity ∨
    ∃ connection, s.phase = .waiting connection ∧
      s.connections[connection]? = some (.response (.keyGenerated identity))

/-- An event that does not lose a new key of the enclave. -/
def Keeps (s : State) : Event → Prop
  | .answerHandshake connection generated =>
      s.identity = none → generated ≠ none → s.phase = .waiting connection
  | .loseResponse => ∀ identity, s.identity = some identity → ¬ s.InFlight identity
  | .restartProxy => ∀ identity, s.identity = some identity → ¬ s.InFlight identity
  | .storeKey inserted => inserted = true
  | _ => True

/-- Every key of the enclave is recorded or in flight. -/
structure Tracked (s : State) : Prop where
  key : ∀ identity, s.identity = some identity → s.Recorded identity ∨ s.InFlight identity
  tasks : ∀ task ∈ s.tasks, task.submitted → task.identity.publicKey ∈ s.submitted

variable {s t : State} {identity : EnclaveIdentity} {attestationConfigured : Bool}

theorem not_inFlight_of_idle (hphase : s.phase = .idle) : ¬ s.InFlight identity := by
  simp [InFlight, hphase]

theorem tasks_submitted_proveTasks {rows : List EnclaveIdentity} {task : ProveTask}
    (htask : task ∈ proveTasks attestationConfigured rows) : task.submitted = false := by
  rw [proveTasks] at htask
  split at htask
  · obtain ⟨row, _, rfl⟩ := List.mem_map.mp htask
    rfl
  · cases htask

namespace Tracked

theorem answer (h : s.Tracked) {connection : Nat} {generated : Option EnclaveIdentity}
    (hrequest : s.connections[connection]? = some .request)
    (hkeeps : s.Keeps (.answerHandshake connection generated)) :
    (answer s connection generated).Tracked := by
  refine ⟨fun current hcurrent => ?_, ?_⟩
  · cases hidentity : s.identity with
    | some identity =>
        simp only [Proxy.answer, hidentity, Option.some.injEq] at hcurrent ⊢
        subst hcurrent
        refine (h.key identity hidentity).imp_right fun hflight => ?_
        refine hflight.imp_right fun ⟨other, hphase, hother⟩ => ⟨other, hphase, ?_⟩
        have hne : connection ≠ other := by
          rintro rfl
          simp [hrequest] at hother
        rwa [List.getElem?_set_ne hne]
    | none =>
        cases generated with
        | none => simp [Proxy.answer, hidentity] at hcurrent
        | some identity =>
            have hphase : s.phase = .waiting connection := hkeeps hidentity nofun
            simp only [Proxy.answer, hidentity, Option.some.injEq] at hcurrent ⊢
            subst hcurrent
            obtain ⟨hlt, _⟩ := List.getElem?_eq_some_iff.mp hrequest
            exact .inr (.inr ⟨connection, hphase, List.getElem?_set_self hlt⟩)
  · unfold Proxy.answer
    split <;> exact h.tasks

theorem receive (h : s.Tracked) {connection : Nat} {response : EnclaveResponse}
    (hphase : s.phase = .waiting connection)
    (hresponse : s.connections[connection]? = some (.response response)) :
    (receive { s with connections := s.connections.set connection .closed }
      response).1.Tracked := by
  have hflight : ∀ {current}, s.InFlight current → response = .keyGenerated current := by
    rintro current (hstoring | ⟨other, hother, hgenerated⟩)
    · simp [hphase] at hstoring
    · rw [hphase, HandshakePhase.waiting.injEq] at hother
      subst hother
      simpa [hresponse] using hgenerated
  have hrecorded : ∀ current, s.identity = some current → response ≠ .keyGenerated current →
      s.Recorded current :=
    fun current hcurrent hne => (h.key current hcurrent).resolve_right fun hf => hne (hflight hf)
  cases response with
  | keyGenerated identity =>
      refine ⟨fun current hcurrent => ?_, h.tasks⟩
      by_cases heq : identity = current
      · subst heq
        exact .inr (.inl rfl)
      · exact .inl (hrecorded current hcurrent (by simpa using heq))
  | alreadyInitialized identity =>
      exact ⟨fun current hcurrent => .inl (hrecorded current hcurrent nofun), h.tasks⟩
  | error => exact ⟨fun current hcurrent => .inl (hrecorded current hcurrent nofun), h.tasks⟩

theorem storeKey (h : s.Tracked) (hphase : s.phase = .storing identity) :
    Tracked { s with
      phase := .idle
      pendingAttestation := insertPendingAttestation s.pendingAttestation identity
      tasks := s.tasks ++ proveTasks attestationConfigured [identity] } := by
  refine ⟨fun current hcurrent => .inl ?_, fun task htask hsubmitted => ?_⟩
  · rw [Recorded, pending_insert]
    obtain (hpending | hsubmitted) | hstoring | ⟨connection, hwaiting, _⟩ := h.key current hcurrent
    · exact .inl (.inl hpending)
    · exact .inr hsubmitted
    · rw [hphase, HandshakePhase.storing.injEq] at hstoring
      exact .inl (.inr (congrArg _ hstoring))
    · simp [hphase] at hwaiting
  · obtain htask | htask := List.mem_append.mp htask
    · exact h.tasks task htask hsubmitted
    · simp [tasks_submitted_proveTasks htask] at hsubmitted

theorem submitAttestation (h : s.Tracked) {n : Nat} :
    Tracked { s with
      tasks := s.tasks.set n ⟨identity, true⟩
      submitted := s.submitted ++ [identity.publicKey] } := by
  refine ⟨fun current hcurrent => ?_, fun task htask hsubmitted => ?_⟩
  · refine (h.key current hcurrent).imp_left fun hrecorded => ?_
    exact hrecorded.imp_right (List.mem_append_left _)
  · obtain htask | rfl := List.mem_or_eq_of_mem_set htask
    · exact List.mem_append_left _ (h.tasks task htask hsubmitted)
    · exact List.mem_append_right _ (.head _)

theorem finishTask (h : s.Tracked) {n : Nat} (htask : s.tasks[n]? = some ⟨identity, true⟩)
    {rows : List EnclaveIdentity} (hrows : rows = s.pendingAttestation ∨
      rows = deletePendingAttestation s.pendingAttestation identity.publicKey) :
    Tracked { s with tasks := s.tasks.eraseIdx n, pendingAttestation := rows } := by
  have hdone : identity.publicKey ∈ s.submitted :=
    h.tasks _ (List.mem_of_getElem? htask) rfl
  refine ⟨fun current hcurrent => ?_, fun task hmem => h.tasks task (List.mem_of_mem_eraseIdx hmem)⟩
  refine (h.key current hcurrent).imp_left fun hrecorded => ?_
  obtain rfl | rfl := hrows
  · exact hrecorded
  · obtain hpending | hsubmitted := hrecorded
    · by_cases heq : current.publicKey = identity.publicKey
      · exact .inr (heq ▸ hdone)
      · exact .inl (pending_delete.mpr ⟨hpending, heq⟩)
    · exact .inr hsubmitted

theorem step {event : Event} {result : Option HandshakeResult} (h : s.Tracked)
    (hstep : step attestationConfigured s event = some (t, result)) (hkeeps : s.Keeps event) :
    t.Tracked := by
  cases event with
  | sendHandshake =>
      cases hphase : s.phase with
      | idle =>
          simp only [Proxy.step, hphase, Option.some.injEq, Prod.mk.injEq] at hstep
          obtain ⟨rfl, -⟩ := hstep
          refine ⟨fun current hcurrent => .inl ?_, h.tasks⟩
          exact (h.key current hcurrent).resolve_right (not_inFlight_of_idle hphase)
      | waiting connection => simp [Proxy.step, hphase] at hstep
      | storing identity => simp [Proxy.step, hphase] at hstep
  | answerHandshake connection generated =>
      simp only [Proxy.step] at hstep
      split at hstep
      · next hrequest =>
          simp only [Option.some.injEq, Prod.mk.injEq] at hstep
          obtain ⟨rfl, -⟩ := hstep
          exact h.answer hrequest hkeeps
      · cases hstep
  | receiveResponse =>
      simp only [Proxy.step] at hstep
      split at hstep
      · next connection hphase =>
          split at hstep
          · next response hresponse =>
              rw [Option.some.injEq] at hstep
              have hreceive := h.receive hphase hresponse
              rwa [hstep] at hreceive
          · cases hstep
      · cases hstep
  | loseResponse =>
      simp only [Proxy.step] at hstep
      split at hstep
      · simp only [Option.some.injEq, Prod.mk.injEq] at hstep
        obtain ⟨rfl, -⟩ := hstep
        exact ⟨fun current hcurrent => .inl ((h.key current hcurrent).resolve_right
          (hkeeps current hcurrent)), h.tasks⟩
      · cases hstep
  | storeKey inserted =>
      have hinserted : inserted = true := hkeeps
      subst hinserted
      simp only [Proxy.step, if_true] at hstep
      split at hstep
      · next hphase =>
          simp only [Option.some.injEq, Prod.mk.injEq] at hstep
          obtain ⟨rfl, -⟩ := hstep
          exact h.storeKey hphase
      · cases hstep
  | restartProxy =>
      simp only [Proxy.step, Option.some.injEq, Prod.mk.injEq] at hstep
      obtain ⟨rfl, -⟩ := hstep
      refine ⟨fun current hcurrent => .inl ((h.key current hcurrent).resolve_right
        (hkeeps current hcurrent)), fun task htask hsubmitted => ?_⟩
      simp [tasks_submitted_proveTasks htask] at hsubmitted
  | restartEnclave =>
      simp only [Proxy.step, Option.some.injEq, Prod.mk.injEq] at hstep
      obtain ⟨rfl, -⟩ := hstep
      exact ⟨nofun, h.tasks⟩
  | submitAttestation n =>
      simp only [Proxy.step] at hstep
      split at hstep
      · simp only [Option.some.injEq, Prod.mk.injEq] at hstep
        obtain ⟨rfl, -⟩ := hstep
        exact h.submitAttestation
      · cases hstep
  | finishTask n deleted =>
      simp only [Proxy.step] at hstep
      split at hstep
      · next htask =>
          simp only [Option.some.injEq, Prod.mk.injEq] at hstep
          obtain ⟨rfl, -⟩ := hstep
          refine h.finishTask htask ?_
          cases deleted with
          | false => exact .inl rfl
          | true => exact .inr rfl
      · cases hstep

end Tracked

/-- A call that succeeds leaves no handshake open. -/
theorem idle_of_ok {event : Event}
    (hstep : step attestationConfigured s event = some (t, some .ok)) : t.phase = .idle := by
  cases event with
  | receiveResponse =>
      simp only [step] at hstep
      split at hstep
      · split at hstep
        · next response _ =>
            cases response with
            | keyGenerated identity => simp [receive] at hstep
            | alreadyInitialized identity =>
                simp only [receive, Option.some.injEq, Prod.mk.injEq] at hstep
                rw [← hstep.1]
            | error => simp [receive] at hstep
        · cases hstep
      · cases hstep
  | storeKey inserted =>
      simp only [step] at hstep
      split at hstep
      · simp only [Option.some.injEq, Prod.mk.injEq] at hstep
        rw [← hstep.1]
      · cases hstep
  | sendHandshake | answerHandshake | loseResponse | restartProxy | restartEnclave
  | submitAttestation | finishTask =>
      simp only [step] at hstep
      repeat' split at hstep
      all_goals simp at hstep

end State

/-- The steps that lose no new key. -/
def KeepingStep (attestationConfigured : Bool) (s : State)
    (event : Event × Option HandshakeResult) (t : State) : Prop :=
  Step attestationConfigured s event t ∧ s.Keeps event.1

/-- If no answer with a new key is lost, neither on its way nor by a restart of the proxy or a
failed insert, the key of the enclave is queued or attested when a handshake succeeds. -/
theorem handshake_queues_key {attestationConfigured : Bool} {s t : State}
    {events : List (Event × Option HandshakeResult)} {event : Event}
    (hrun : Run (KeepingStep attestationConfigured) .start events s)
    (hstep : KeepingStep attestationConfigured s (event, some .ok) t) : t.Queued := by
  have hstart : State.start.Tracked := ⟨nofun, nofun⟩
  have hs : s.Tracked := hrun.invariant (fun hstep hs => hs.step hstep.1 hstep.2) hstart
  have ht : t.Tracked := hs.step hstep.1 hstep.2
  exact fun identity hidentity => (ht.key identity hidentity).resolve_right
    (State.not_inFlight_of_idle (State.idle_of_ok hstep.1))

/-- The next handshake succeeds and does not repair a lost key. -/
theorem handshake_skips_lost_key {attestationConfigured : Bool} {s : State}
    {identity : EnclaveIdentity} (hphase : s.phase = .idle)
    (hidentity : s.identity = some identity) (hlost : ¬ s.Recorded identity) :
    ∃ t, Run (Step attestationConfigured) s
        [(.sendHandshake, none), (.answerHandshake s.connections.length none, none),
          (.receiveResponse, some .ok)] t ∧ ¬ t.Queued := by
  refine ⟨{ s with connections := s.connections ++ [.closed] }, ?_, fun h => hlost (h _ hidentity)⟩
  refine .cons (t := { s with
    connections := s.connections ++ [.request], phase := .waiting s.connections.length }) ?_ ?_
  · simp [Step, step, hphase]
  refine .cons (t := { s with
    connections := s.connections ++ [.response (.alreadyInitialized identity)]
    phase := .waiting s.connections.length }) ?_ ?_
  · simp [Step, step, answer, hidentity]
  refine .cons ?_ (.nil _)
  simp [Step, step, receive, hphase]

section Sample

def sampleKey : EnclaveIdentity := ⟨[4, 1], [7]⟩

def sampleRequested : State := ⟨none, [.request], .waiting 0, [], [], []⟩

/-- The enclave has generated its key and the proxy waits for the answer. -/
def sampleAnswered : State :=
  ⟨some sampleKey, [.response (.keyGenerated sampleKey)], .waiting 0, [], [], []⟩

def sampleReceived : State := ⟨some sampleKey, [.closed], .storing sampleKey, [], [], []⟩

theorem handshake_queues_sampleKey :
    State.Queued ⟨some sampleKey, [.closed], .idle, [⟨sampleKey, false⟩], [sampleKey], []⟩ := by
  have hrun : Run (KeepingStep true) .start
      [(.sendHandshake, none), (.answerHandshake 0 (some sampleKey), none),
        (.receiveResponse, none)] sampleReceived := by
    refine .cons (t := sampleRequested) ⟨rfl, trivial⟩ ?_
    refine .cons (t := sampleAnswered) ⟨rfl, fun _ _ => rfl⟩ ?_
    exact .cons ⟨rfl, trivial⟩ (.nil _)
  exact @handshake_queues_key true _ _ _ (.storeKey true) hrun ⟨rfl, rfl⟩

/-- After a lost answer, and after a restart of the proxy between the answer and the insert,
a handshake succeeds with a key that is neither queued nor attested. -/
theorem handshake_without_row :
    (∃ events t, Run (Step true) .start
        ([(.sendHandshake, none), (.answerHandshake 0 (some sampleKey), none),
          (.loseResponse, some .error)] ++ events ++ [(.receiveResponse, some .ok)]) t ∧
        ¬ t.Queued) ∧
      ∃ events t, Run (Step true) .start
        ([(.sendHandshake, none), (.answerHandshake 0 (some sampleKey), none),
          (.receiveResponse, none), (.restartProxy, none)] ++ events ++
            [(.receiveResponse, some .ok)]) t ∧
        ¬ t.Queued := by
  constructor
  · have hlost : ¬ State.Recorded { sampleAnswered with phase := .idle } sampleKey := by
      simp [State.Recorded, Pending, sampleAnswered]
    obtain ⟨t, hrun, ht⟩ := @handshake_skips_lost_key true _ sampleKey rfl rfl hlost
    refine ⟨[(.sendHandshake, none), (.answerHandshake 1 none, none)], t, ?_, ht⟩
    refine .cons (t := sampleRequested) rfl ?_
    exact .cons (t := sampleAnswered) rfl (.cons rfl hrun)
  · have hlost : ¬ State.Recorded { sampleReceived with phase := .idle } sampleKey := by
      simp [State.Recorded, Pending, sampleReceived]
    obtain ⟨t, hrun, ht⟩ := @handshake_skips_lost_key true _ sampleKey rfl rfl hlost
    refine ⟨[(.sendHandshake, none), (.answerHandshake 1 none, none)], t, ?_, ht⟩
    refine .cons (t := sampleRequested) rfl ?_
    refine .cons (t := sampleAnswered) rfl ?_
    refine .cons (t := sampleReceived) rfl ?_
    exact .cons rfl hrun

end Sample

end FluentStf.Proxy
