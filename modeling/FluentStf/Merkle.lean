import Mathlib.Data.List.Basic
import Mathlib.Data.Set.Function

/-! Merkle trees over a list of leaves. Every level joins neighbours from left to
right, and an odd last element is joined with itself. -/
namespace Merkle

variable {α : Type*}

/-- A level of even length: an odd last element stands twice. -/
def padded (level : List α) : List α :=
  if level.length % 2 = 0 then level else level ++ level.getLast?.toList

/-- The neighbours from left to right. -/
def pairs : List α → List (α × α)
  | a :: b :: rest => (a, b) :: pairs rest
  | [_] => []
  | [] => []

def parents (join : α → α → α) (level : List α) : List α :=
  (pairs (padded level)).map fun pair => join pair.1 pair.2

theorem padded_length (level : List α) :
    (padded level).length = level.length + level.length % 2 := by
  unfold padded
  split
  · next h => omega
  · next h =>
      have hne : level ≠ [] := by
        rintro rfl
        exact h rfl
      simp only [List.length_append, List.getLast?_eq_getLast_of_ne_nil hne, Option.toList_some,
        List.length_singleton]
      omega

theorem pairs_length (level : List α) : (pairs level).length = level.length / 2 := by
  induction level using pairs.induct with
  | case1 a b rest ih =>
      simp only [pairs, List.length_cons, ih]
      omega
  | case2 a => simp [pairs]
  | case3 => simp [pairs]

@[simp] theorem parents_length (join : α → α → α) (level : List α) :
    (parents join level).length = (level.length + 1) / 2 := by
  rw [parents, List.length_map, pairs_length, padded_length]
  omega

theorem padded_cons_cons (a b : α) (rest : List α) :
    padded (a :: b :: rest) = a :: b :: padded rest := by
  have hmod : (rest.length + 1 + 1) % 2 = rest.length % 2 := by omega
  simp only [padded, List.length_cons, hmod]
  split
  · rfl
  · next h =>
      have hne : rest ≠ [] := by
        rintro rfl
        exact h rfl
      obtain ⟨c, rest, rfl⟩ := List.exists_cons_of_ne_nil hne
      simp [List.getLast?_cons_cons]

theorem parents_cons_cons (join : α → α → α) (a b : α) (rest : List α) :
    parents join (a :: b :: rest) = join a b :: parents join rest := by
  rw [parents, padded_cons_cons, pairs, List.map_cons, parents]

/-- The top of the tree over the given leaves. -/
def root (join : α → α → α) : List α → Option α
  | [] => none
  | [top] => some top
  | a :: b :: rest => root join (parents join (a :: b :: rest))
termination_by level => level.length
decreasing_by
  rw [parents_length]
  simp only [List.length_cons]
  omega

theorem exists_root (join : α → α → α) {leaves : List α} (hne : leaves ≠ []) :
    ∃ top, root join leaves = some top := by
  induction leaves using root.induct join with
  | case1 => exact absurd rfl hne
  | case2 top => exact ⟨top, by rw [root]⟩
  | case3 a b rest ih =>
      rw [root]
      apply ih
      apply List.ne_nil_of_length_pos
      rw [parents_length, List.length_cons]
      omega

/-- All pairs that are joined on the way to the top. -/
def joined (join : α → α → α) : List α → List (α × α)
  | [] => []
  | [_] => []
  | a :: b :: rest =>
      pairs (padded (a :: b :: rest)) ++ joined join (parents join (a :: b :: rest))
termination_by level => level.length
decreasing_by
  rw [parents_length]
  simp only [List.length_cons]
  omega

theorem getElem?_pairs (level : List α) (i : Nat) :
    (pairs level)[i]? = level[2 * i]?.bind fun a => level[2 * i + 1]?.map fun b => (a, b) := by
  induction level using pairs.induct generalizing i with
  | case1 a b rest ih =>
      cases i with
      | zero => rfl
      | succ i =>
          rw [pairs, List.getElem?_cons_succ, ih, show 2 * (i + 1) = 2 * i + 1 + 1 by omega]
          rfl
  | case2 a => simp [pairs]
  | case3 => simp [pairs]

/-- Levels of even length are determined by their pairs. -/
theorem pairs_inj {level other : List α} (heven : level.length % 2 = 0)
    (hlength : level.length = other.length) (h : pairs level = pairs other) : level = other := by
  refine List.ext_getElem? fun i => ?_
  have hpair : ∀ j, 2 * j + 1 < level.length →
      level[2 * j]? = other[2 * j]? ∧ level[2 * j + 1]? = other[2 * j + 1]? := by
    intro j hj
    have hget : (pairs level)[j]? = (pairs other)[j]? := by rw [h]
    rw [getElem?_pairs, getElem?_pairs] at hget
    rw [List.getElem?_eq_getElem hj, List.getElem?_eq_getElem (show 2 * j < level.length by omega),
      List.getElem?_eq_getElem (show 2 * j + 1 < other.length by omega),
      List.getElem?_eq_getElem (show 2 * j < other.length by omega)] at hget ⊢
    simpa using hget
  by_cases hi : i < level.length
  · obtain ⟨j, rfl | rfl⟩ : ∃ j, i = 2 * j ∨ i = 2 * j + 1 := ⟨i / 2, by omega⟩
    · exact (hpair j (by omega)).1
    · exact (hpair j hi).2
  · rw [List.getElem?_eq_none (by omega), List.getElem?_eq_none (by omega)]

theorem padded_inj {level other : List α} (hlength : level.length = other.length)
    (h : padded level = padded other) : level = other := by
  unfold padded at h
  rw [← hlength] at h
  split at h
  · exact h
  · exact (List.append_inj h hlength).1

/-- Leaves of one number are determined by the top, if no two of the pairs that are
joined meet. -/
theorem root_inj {join : α → α → α} {leaves others : List α}
    (hlength : leaves.length = others.length)
    (hinj : Set.InjOn (fun pair : α × α => join pair.1 pair.2)
      {pair | pair ∈ joined join leaves ∨ pair ∈ joined join others})
    (h : root join leaves = root join others) : leaves = others := by
  induction leaves using root.induct join generalizing others with
  | case1 => exact (List.length_eq_zero_iff.mp hlength.symm).symm
  | case2 top =>
      obtain ⟨other, rfl⟩ := List.length_eq_one_iff.mp hlength.symm
      simpa [root] using h
  | case3 a b rest ih =>
      match others, hlength with
      | c :: d :: others, hlength =>
          simp only [joined, List.mem_append] at hinj
          simp only [root] at h
          have hparents := ih (by simp [hlength])
            (hinj.mono fun pair hpair => hpair.imp .inr .inr) h
          have hpadded : (padded (a :: b :: rest)).length = (padded (c :: d :: others)).length := by
            rw [padded_length, padded_length, hlength]
          have hpairs : pairs (padded (a :: b :: rest)) = pairs (padded (c :: d :: others)) := by
            refine List.ext_getElem (by simp [pairs_length, hpadded]) fun i hi hi' => ?_
            refine hinj (.inl (.inl (List.getElem_mem hi)))
              (.inr (.inl (List.getElem_mem hi'))) ?_
            simpa [parents, hi, hi'] using congrArg (·[i]?) hparents
          refine padded_inj hlength (pairs_inj ?_ hpadded hpairs)
          rw [padded_length]
          omega

end Merkle
