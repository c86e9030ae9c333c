import Mathlib.Data.Finset.Card
import Mathlib.Data.Finset.Max

/-! Tables of bounded size that keep their highest keys. Whenever a table has become too
large, its lowest keys are dropped. What is left after any number of insertions are the
highest of all keys ever inserted, each with the value that it got last. -/
namespace Highest

open Std

variable {α β : Type*}

/-- The `k` largest elements of a finite set, or all of them if there are fewer. -/
structure IsHighest [LT α] (k : Nat) (all kept : Finset α) : Prop where
  subset : kept ⊆ all
  card : kept.card = min k all.card
  above : ∀ n ∈ kept, ∀ m ∈ all, m ∉ kept → m < n

section Sets

variable [LT α] {k : Nat} {all kept : Finset α}

theorem isHighest_self (h : all.card ≤ k) : IsHighest k all all where
  subset := Finset.Subset.refl all
  card := (Nat.min_eq_right h).symm
  above _ _ _ hm hne := absurd hm hne

namespace IsHighest

theorem eq_of_card_le (h : IsHighest k all kept) (hle : all.card ≤ k) : kept = all := by
  refine Finset.eq_of_subset_of_card_le h.subset ?_
  rw [h.card, Nat.min_eq_right hle]

variable [DecidableEq α]

/-- Where there are too many elements, the lowest one makes no difference. -/
theorem of_erase {lowest : α} (hmem : lowest ∈ all)
    (hlowest : ∀ n ∈ all, n ≠ lowest → lowest < n) (hcard : k < all.card)
    (h : IsHighest k (all.erase lowest) kept) : IsHighest k all kept where
  subset := h.subset.trans (Finset.erase_subset lowest all)
  card := by
    rw [h.card, Finset.card_erase_of_mem hmem]
    omega
  above n hn m hm hne := by
    by_cases heq : m = lowest
    · subst heq
      obtain ⟨hnm, hn⟩ := Finset.mem_erase.mp (h.subset hn)
      exact hlowest n hn hnm
    · exact h.above n hn m (Finset.mem_erase.mpr ⟨heq, hm⟩) hne

/-- It is enough to choose among a new element and those that were kept. -/
theorem insert [Trans (· < · : α → α → Prop) (· < ·) (· < ·)] {new : α} {next : Finset α}
    (h : IsHighest k all kept) (hnext : IsHighest k (insert new kept) next) :
    IsHighest k (insert new all) next := by
  by_cases hle : all.card ≤ k
  · rwa [h.eq_of_card_le hle] at hnext
  -- From here on, elements have been dropped before, and as many are kept as there may be.
  have hkept : kept.card = k := by
    rw [h.card]
    omega
  have hall := Finset.card_le_card (Finset.subset_insert new all)
  have hchoice := Finset.card_le_card (Finset.subset_insert new kept)
  refine ⟨hnext.subset.trans (Finset.insert_subset_insert new h.subset), ?_, ?_⟩
  · rw [hnext.card]
    omega
  · intro n hn m hm hne
    by_cases hmkept : m ∈ Insert.insert new kept
    · exact hnext.above n hn m hmkept hne
    obtain ⟨hmnew, hmkept⟩ := not_or.mp (mt Finset.mem_insert.mpr hmkept)
    have hbelow : ∀ a ∈ kept, m < a := fun a ha =>
      h.above a ha m ((Finset.mem_insert.mp hm).resolve_left hmnew) hmkept
    by_cases hnkept : n ∈ kept
    · exact hbelow n hnkept
    -- The new element has taken the place of one that was kept.
    have hdropped : ∃ a ∈ kept, a ∉ next := by
      by_contra hnone
      push Not at hnone
      have hboth := Finset.card_le_card (Finset.insert_subset hn hnone)
      rw [Finset.card_insert_of_notMem hnkept, hnext.card] at hboth
      omega
    obtain ⟨a, ha, hanext⟩ := hdropped
    exact Std.lt_trans (hbelow a ha)
      (hnext.above n hn a (Finset.mem_insert_of_mem ha) hanext)

end IsHighest

end Sets

section Tables

variable [Ord α] [TransOrd α] {table : ExtTreeMap α β} {capacity : Nat} {lowest : α}

theorem size_erase_lt (h : table.minKey? = some lowest) :
    (table.erase lowest).size < table.size := by
  have hmem : lowest ∈ table := ExtTreeMap.minKey?_mem h
  have hpos : table.size ≠ 0 := by
    rw [ne_eq, ← ExtTreeMap.eq_empty_iff_size_eq_zero]
    rintro rfl
    exact ExtTreeMap.not_mem_empty hmem
  rw [ExtTreeMap.size_erase, if_pos (ExtTreeMap.mem_iff_contains.mp hmem)]
  omega

/-- Drop the lowest keys while there are too many. -/
def trim (capacity : Nat) (table : ExtTreeMap α β) : ExtTreeMap α β :=
  if capacity < table.size then
    match _hmin : table.minKey? with
    | none => table
    | some lowest => trim capacity (table.erase lowest)
  else table
termination_by table.size
decreasing_by exact size_erase_lt ‹_›

theorem trim_of_le (h : table.size ≤ capacity) : trim capacity table = table := by
  rw [trim, if_neg (Nat.not_lt.mpr h)]

theorem trim_of_lt (h : capacity < table.size) (hmin : table.minKey? = some lowest) :
    trim capacity table = trim capacity (table.erase lowest) := by
  rw [trim, if_pos h]
  split
  · next hnone => simp [hmin] at hnone
  · next other hother =>
      rw [hmin] at hother
      rw [Option.some.inj hother]

theorem exists_minKey (h : capacity < table.size) : ∃ lowest, table.minKey? = some lowest := by
  refine Option.ne_none_iff_exists'.mp fun hnone => ?_
  rw [ExtTreeMap.minKey?_eq_none_iff] at hnone
  rw [hnone, ExtTreeMap.size_empty] at h
  omega

/-- What holds of every table that is small enough, and does not depend on lowest keys where
there are too many, holds of every table. -/
theorem trim_induction (capacity : Nat) {motive : ExtTreeMap α β → Prop}
    (small : ∀ table : ExtTreeMap α β, table.size ≤ capacity → motive table)
    (drop : ∀ (table : ExtTreeMap α β) (lowest : α), capacity < table.size →
      table.minKey? = some lowest → motive (table.erase lowest) → motive table)
    (table : ExtTreeMap α β) : motive table := by
  induction hsize : table.size using Nat.strong_induction_on generalizing table with
  | h size ih =>
      by_cases h : table.size ≤ capacity
      · exact small table h
      · obtain ⟨lowest, hmin⟩ := exists_minKey (Nat.not_le.mp h)
        exact drop table lowest (Nat.not_le.mp h) hmin
          (ih _ (hsize ▸ size_erase_lt hmin) _ rfl)

/-- Values are only dropped. -/
theorem getElem?_trim {n : α} {value : β} (h : (trim capacity table)[n]? = some value) :
    table[n]? = some value := by
  induction table using @trim_induction α β _ _ capacity with
  | small table hsize => rwa [trim_of_le hsize] at h
  | drop table lowest hsize hmin ih =>
      rw [trim_of_lt hsize hmin] at h
      have hrest := ih h
      rw [ExtTreeMap.getElem?_erase] at hrest
      split at hrest
      · cases hrest
      · exact hrest

end Tables

section Keys

variable [Ord α] [TransOrd α] [DecidableEq α] {table : ExtTreeMap α β}

theorem card_keys : table.keys.toFinset.card = table.size := by
  rw [List.toFinset_card_of_nodup ExtTreeMap.nodup_keys, ExtTreeMap.length_keys]

variable [LawfulEqOrd α]

theorem mem_keys {n : α} : n ∈ table.keys.toFinset ↔ n ∈ table := by
  rw [List.mem_toFinset, ExtTreeMap.mem_keys]

theorem keys_erase (n : α) :
    (table.erase n).keys.toFinset = table.keys.toFinset.erase n := by
  ext m
  rw [mem_keys, Finset.mem_erase, mem_keys, ExtTreeMap.mem_erase, ne_eq, ne_eq,
    LawfulEqCmp.compare_eq_iff_eq, eq_comm]

theorem keys_insert (n : α) (value : β) :
    (table.insert n value).keys.toFinset = insert n table.keys.toFinset := by
  ext m
  rw [mem_keys, Finset.mem_insert, mem_keys, ExtTreeMap.mem_insert,
    LawfulEqCmp.compare_eq_iff_eq, eq_comm]

end Keys

section Keeping

variable [LE α] [LT α] [IsLinearOrder α] [Ord α] [LawfulOrderOrd α] [DecidableEq α]
  {table : ExtTreeMap α β} {capacity : Nat}

/-- The highest of the keys that were inserted, with the values that were inserted last. -/
structure Keeps (capacity : Nat) (inserted : List (α × β)) (table : ExtTreeMap α β) :
    Prop where
  highest : IsHighest capacity (inserted.map Prod.fst).toFinset table.keys.toFinset
  last : ∀ n value, table[n]? = some value → inserted.reverse.lookup n = some value

namespace Keeps

variable {inserted : List (α × β)}

theorem empty : Keeps capacity ([] : List (α × β)) ∅ where
  highest := isHighest_self (Nat.zero_le _)
  last n value h := by simp at h

/-- A key is found exactly if it is one of the highest. -/
theorem getElem?_eq (h : Keeps capacity inserted table) (n : α) :
    table[n]? = if n ∈ table.keys.toFinset then inserted.reverse.lookup n else none := by
  cases hn : table[n]? with
  | none =>
      rw [if_neg]
      rwa [mem_keys, ExtTreeMap.mem_iff_isSome_getElem?, Option.not_isSome_iff_eq_none]
  | some value =>
      rw [if_pos, h.last n value hn]
      rw [mem_keys, ExtTreeMap.mem_iff_isSome_getElem?, hn]
      rfl

end Keeps

variable [LawfulOrderLT α]

/-- Trimming keeps the highest keys. -/
theorem isHighest_trim :
    IsHighest capacity table.keys.toFinset (trim capacity table).keys.toFinset := by
  induction table using @trim_induction α β _ _ capacity with
  | small table hsize =>
      rw [trim_of_le hsize]
      exact isHighest_self (card_keys.trans_le hsize)
  | drop table lowest hsize hmin ih =>
      rw [trim_of_lt hsize hmin]
      rw [keys_erase] at ih
      obtain ⟨hmem, hle⟩ := ExtTreeMap.minKey?_eq_some_iff_mem_and_forall.mp hmin
      refine ih.of_erase (mem_keys.mpr hmem) (fun n hn hne => ?_) (by rwa [card_keys])
      exact Std.lt_of_le_of_ne (Std.isLE_compare.mp (hle n (mem_keys.mp hn))) hne.symm

/-- One insertion, after which the lowest keys are dropped. -/
theorem Keeps.insert {inserted : List (α × β)} (h : Keeps capacity inserted table) (n : α)
    (value : β) :
    Keeps capacity (inserted ++ [(n, value)]) (trim capacity (table.insert n value)) where
  highest := by
    have hnumbers : ((inserted ++ [(n, value)]).map Prod.fst).toFinset =
        Insert.insert n (inserted.map Prod.fst).toFinset := by
      ext m
      simp
    rw [hnumbers]
    refine h.highest.insert ?_
    rw [← keys_insert n value]
    exact isHighest_trim
  last m found hfound := by
    have hinsert := getElem?_trim hfound
    rw [ExtTreeMap.getElem?_insert] at hinsert
    rw [List.reverse_append, List.reverse_singleton, List.singleton_append]
    split at hinsert
    · next heq =>
        obtain rfl := LawfulEqCmp.eq_of_compare heq
        rw [List.lookup_cons_self, hinsert]
    · next hne =>
        have hmn : (m == n) = false := by
          rw [beq_eq_false_iff_ne]
          rintro rfl
          exact hne ReflCmp.compare_self
        rw [List.lookup_cons, hmn]
        exact h.last m found hinsert

end Keeping

end Highest
