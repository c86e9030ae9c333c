import Mathlib.Data.List.Basic

/-! Iterators that are asked for one item after the other. The state they are in
is explicit, and an iterator that has given nothing once is not asked again. -/
namespace Pull

variable {σ ι : Type*}

/-- Asked again and again, the iterator gives these items and then nothing. -/
inductive Yields (next : σ → Option ι × σ) : σ → List ι → Prop where
  | stop {s s' : σ} (h : next s = (none, s')) : Yields next s []
  | item {s s' : σ} {a : ι} {items : List ι} (h : next s = (some a, s'))
      (rest : Yields next s' items) : Yields next s (a :: items)

/-- Whether some item passes the test. Nothing is asked for after such an item. -/
def any (next : σ → Option ι × σ) (test : ι → Bool) : Nat → σ → Bool
  | 0, _ => false
  | fuel + 1, s => match next s with
    | (none, _) => false
    | (some a, s') => test a || any next test fuel s'

variable {next : σ → Option ι × σ}

theorem yields_nil_iff {s : σ} : Yields next s [] ↔ ∃ s', next s = (none, s') := by
  constructor
  · rintro (h | _)
    exact ⟨_, h⟩
  · rintro ⟨s', h⟩
    exact .stop h

theorem yields_cons_iff {s : σ} {a : ι} {items : List ι} :
    Yields next s (a :: items) ↔ ∃ s', next s = (some a, s') ∧ Yields next s' items := by
  constructor
  · rintro (_ | ⟨h, rest⟩)
    exact ⟨_, h, rest⟩
  · rintro ⟨s', h, rest⟩
    exact .item h rest

/-- Two states that answer alike yield the same items. -/
theorem Yields.congr {s t : σ} {items : List ι} (hst : next s = next t) :
    Yields next s items ↔ Yields next t items := by
  cases items with
  | nil => rw [yields_nil_iff, yields_nil_iff, hst]
  | cons a items => rw [yields_cons_iff, yields_cons_iff, hst]

theorem Yields.unique {s : σ} {items others : List ι} (h : Yields next s items)
    (h' : Yields next s others) : items = others := by
  induction h generalizing others with
  | stop h =>
      cases h' with
      | stop _ => rfl
      | item h'' _ => cases h.symm.trans h''
  | item h _ ih =>
      cases h' with
      | stop h'' => cases h.symm.trans h''
      | item h'' rest =>
          cases h.symm.trans h''
          rw [ih rest]

/-- The test sees every item up to the first that passes, so it sees enough. -/
theorem any_eq (test : ι → Bool) {s : σ} {items : List ι} (h : Yields next s items) {fuel : Nat}
    (hfuel : items.length < fuel) : any next test fuel s = items.any test := by
  induction h generalizing fuel with
  | stop h =>
      cases fuel with
      | zero => omega
      | succ fuel => rw [any, h, List.any_nil]
  | item h _ ih =>
      cases fuel with
      | zero => omega
      | succ fuel =>
          rw [List.length_cons] at hfuel
          have hrest := ih (show _ < fuel by omega)
          simp only [any, h, List.any_cons, hrest]

section

variable {size : σ → Nat} (shrinks : ∀ {s s' : σ} {a : ι}, next s = (some a, s') → size s' < size s)

include shrinks

theorem Yields.length_le {s : σ} {items : List ι} (h : Yields next s items) :
    items.length ≤ size s := by
  induction h with
  | stop h => exact Nat.zero_le _
  | item h _ ih =>
      have := shrinks h
      rw [List.length_cons]
      omega

/-- An iterator whose state shrinks with every item comes to an end. -/
theorem exists_yields (s : σ) : ∃ items, Yields next s items := by
  induction hm : size s using Nat.strongRecOn generalizing s with
  | ind m ih =>
      rcases hn : next s with ⟨_ | a, s'⟩
      · exact ⟨[], .stop hn⟩
      · obtain ⟨items, hrest⟩ := ih _ (hm ▸ shrinks hn) s' rfl
        exact ⟨a :: items, .item hn hrest⟩

end

end Pull
