import Mathlib.Data.List.Basic

/-! Runs of systems that take one labelled step after the other. -/
namespace FluentStf

universe u v

variable {State : Type u} {Event : Type v}

/-- The state after a sequence of events, for some order of events that the
system allows. -/
inductive Run (step : State → Event → State → Prop) : State → List Event → State → Prop
  | nil (s : State) : Run step s [] s
  | cons {s t u : State} {event : Event} {events : List Event}
      (head : step s event t) (tail : Run step t events u) : Run step s (event :: events) u

namespace Run

variable {step : State → Event → State → Prop} {s t : State} {events : List Event}

/-- What every step keeps is kept by the whole run. -/
theorem invariant {inv : State → Prop} (hstep : ∀ {s event t}, step s event t → inv s → inv t)
    (h : Run step s events t) (hs : inv s) : inv t := by
  induction h with
  | nil => exact hs
  | cons head _ ih => exact ih (hstep head hs)

/-- A run of a system that computes its next state. -/
theorem of_foldlM {next : State → Event → Option State} {events : List Event} {s t : State}
    (h : events.foldlM next s = some t) :
    Run (fun s event t => next s event = some t) s events t := by
  induction events generalizing s with
  | nil =>
      cases h
      exact .nil _
  | cons event events ih =>
      rw [List.foldlM_cons] at h
      obtain ⟨u, hu, htail⟩ := Option.bind_eq_some_iff.mp h
      exact .cons hu (ih htail)

end Run

section Reorder

variable {step : State → Event → Option State} {inv : State → Prop} {apart : Event → Event → Prop}

/-- Steps that can be exchanged two by two can be taken in any order, also where one of them
fails. -/
theorem foldlM_perm (hsymm : ∀ {a b}, apart a b → apart b a)
    (hstep : ∀ {s event t}, step s event = some t → inv s → inv t)
    (hcomm : ∀ {s a b}, inv s → apart a b →
      ((step s a).bind fun t => step t b) = (step s b).bind fun t => step t a)
    {events order : List Event} (h : events.Perm order) (hapart : events.Pairwise apart)
    {s : State} (hs : inv s) : events.foldlM step s = order.foldlM step s := by
  induction h generalizing s with
  | nil => rfl
  | @cons event events order _ ih =>
      rw [List.foldlM_cons, List.foldlM_cons]
      cases ht : step s event with
      | none => rfl
      | some t => exact ih (List.pairwise_cons.mp hapart).2 (hstep ht hs)
  | swap a b events =>
      have hab := (List.pairwise_cons.mp hapart).1 a (.head _)
      simp only [List.foldlM_cons, bind, ← Option.bind_assoc, hcomm hs hab]
  | trans first _ ih ih' =>
      have hmiddle := (first.pairwise_iff hsymm).mp hapart
      exact (ih hapart hs).trans (ih' hmiddle hs)

end Reorder

end FluentStf
