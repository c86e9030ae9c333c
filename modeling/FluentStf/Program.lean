import Mathlib.Order.Defs.PartialOrder

/-! Computations that ask questions. The same computation is run with the answers of
different oracles, and runs are compared through the answers. -/
namespace FluentStf

/-- A computation that goes on with the answers to its questions. -/
inductive Program (Request : Type) (Response : Request → Type) (Result : Type) where
  | done (result : Result)
  | query (request : Request) (next : Response request → Program Request Response Result)

namespace Program

variable {Request : Type} {Response : Request → Type} {Result : Type}

/-- The result, with every question answered in order. -/
def run {m : Type → Type} [Monad m] (answer : (request : Request) → m (Response request)) :
    Program Request Response Result → m Result
  | .done result => pure result
  | .query request next => do
      let response ← answer request
      (next response).run answer

/-- Whatever the answers are, only allowed questions are asked. -/
def Asks (Allowed : Request → Prop) : Program Request Response Result → Prop
  | .done _ => True
  | .query request next => Allowed request ∧ ∀ response, (next response).Asks Allowed

/-- An oracle that repeats the answers of another one leads to the same result. -/
theorem run_eq_some_of_answers {first second : (request : Request) → Option (Response request)}
    (h : ∀ request response, first request = some response → second request = some response)
    {program : Program Request Response Result} {result : Result}
    (hrun : program.run first = some result) : program.run second = some result := by
  induction program with
  | done _ => exact hrun
  | query request next ih =>
      obtain ⟨response, hresponse, hrest⟩ := Option.bind_eq_some_iff.mp hrun
      exact Option.bind_eq_some_iff.mpr ⟨response, h request response hresponse, ih response hrest⟩

section Recorded

variable {State Failure : Type}
  {record : (request : Request) → StateT State (Except Failure) (Response request)}

theorem run_query_eq_ok {request : Request}
    {next : Response request → Program Request Response Result} {start last : State}
    {result : Result} :
    (query request next).run record start = .ok (result, last) ↔
      ∃ response middle, record request start = .ok (response, middle) ∧
        (next response).run record middle = .ok (result, last) := by
  have hrun : (query request next).run record start =
      (record request start >>= fun answered => (next answered.1).run record answered.2) := rfl
  rw [hrun]
  cases record request start with
  | error _ => simp [bind, Except.bind]
  | ok answered =>
      constructor
      · exact fun h => ⟨answered.1, answered.2, rfl, h⟩
      · rintro ⟨_, _, hanswer, h⟩
        cases hanswer
        exact h

/-- What every single answer preserves is preserved by a run. -/
theorem run_invariant (Holds : State → Prop) (hstep : ∀ request start response last, Holds start →
      record request start = .ok (response, last) → Holds last)
    {program : Program Request Response Result} {start last : State} {result : Result}
    (hstart : Holds start) (hrun : program.run record start = .ok (result, last)) : Holds last := by
  induction program generalizing start with
  | done _ =>
      cases hrun
      exact hstart
  | query request next ih =>
      obtain ⟨response, middle, hanswer, hrest⟩ := run_query_eq_ok.mp hrun
      exact ih response (hstep _ _ _ _ hstart hanswer) hrest

/-- A run that records what it asks for is repeated by any oracle that knows what was recorded in
the end, as long as nothing is taken from the record. -/
theorem run_replay [Preorder State] {replay : (request : Request) → Option (Response request)}
    {Allowed : Request → Prop} {last : State} (Holds : State → Prop)
    (hstep : ∀ request start response next, Holds start →
      record request start = .ok (response, next) → Holds next ∧ start ≤ next)
    (hknown : ∀ request start response next, Allowed request → Holds start →
      record request start = .ok (response, next) → next ≤ last → replay request = some response)
    {program : Program Request Response Result} (hasks : program.Asks Allowed) {start : State}
    {result : Result} (hstart : Holds start)
    (hrun : program.run record start = .ok (result, last)) : program.run replay = some result := by
  induction program generalizing start with
  | done _ =>
      cases hrun
      rfl
  | query request next ih =>
      obtain ⟨hallowed, hnext⟩ := hasks
      obtain ⟨response, middle, hanswer, hrest⟩ := run_query_eq_ok.mp hrun
      have hmiddle := (hstep _ _ _ _ hstart hanswer).1
      have hbelow : Holds last ∧ middle ≤ last := by
        refine run_invariant (fun state => Holds state ∧ middle ≤ state) ?_ ⟨hmiddle, le_rfl⟩ hrest
        intro request state response next hstate hanswer
        obtain ⟨hholds, hle⟩ := hstep request state response next hstate.1 hanswer
        exact ⟨hholds, le_trans hstate.2 hle⟩
      exact Option.bind_eq_some_iff.mpr ⟨response,
        hknown _ _ _ _ hallowed hstart hanswer hbelow.2, ih response (hnext response) hmiddle hrest⟩

end Recorded

end Program

end FluentStf
