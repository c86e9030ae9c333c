import Mathlib.Algebra.BigOperators.Group.List.Basic
import Mathlib.Algebra.GroupWithZero.Nat
import Mathlib.Data.List.Nodup

/-! The total size of the values in a table. -/
namespace FluentStf

open Std

variable {α : Type} {size : α → Nat} {table : ExtTreeMap Nat α} {key : Nat} {value : α}

theorem erase_of_none (h : table[key]? = none) : table.erase key = table := by
  refine ExtTreeMap.ext_getElem? fun n => ?_
  rw [ExtTreeMap.getElem?_erase]
  split
  · next heq => rw [← LawfulEqCmp.eq_of_compare heq, h]
  · rfl

theorem getElem?_erase_ne {n : Nat} (h : n ≠ key) : (table.erase key)[n]? = table[n]? := by
  rw [ExtTreeMap.getElem?_erase, if_neg]
  exact fun heq => h (LawfulEqCmp.eq_of_compare heq).symm

theorem nodup_toList : table.toList.Nodup := by
  refine ExtTreeMap.distinct_keys_toList.imp fun {a b} hne heq => hne ?_
  rw [heq]
  exact ReflCmp.compare_self

/-- A table is one of its rows and the rest. -/
theorem toList_perm (h : table[key]? = some value) :
    table.toList.Perm ((key, value) :: (table.erase key).toList) := by
  have hfresh : (key, value) ∉ (table.erase key).toList := by
    rw [ExtTreeMap.mem_toList_iff_getElem?_eq_some, ExtTreeMap.getElem?_erase_self]
    nofun
  refine (List.perm_ext_iff_of_nodup nodup_toList (nodup_toList.cons hfresh)).mpr ?_
  rintro ⟨n, row⟩
  rw [List.mem_cons, ExtTreeMap.mem_toList_iff_getElem?_eq_some,
    ExtTreeMap.mem_toList_iff_getElem?_eq_some]
  by_cases hn : n = key
  · subst hn
    rw [ExtTreeMap.getElem?_erase_self, h]
    simp [eq_comm]
  · rw [getElem?_erase_ne hn]
    simp [hn]

def weight (size : α → Nat) (table : ExtTreeMap Nat α) : Nat :=
  (table.toList.map fun row => size row.2).sum

theorem weight_empty : weight size ∅ = 0 := by
  have hempty : (∅ : ExtTreeMap Nat α).toList = [] := by
    refine List.eq_nil_iff_forall_not_mem.mpr fun row hrow => ?_
    rw [ExtTreeMap.mem_toList_iff_getElem?_eq_some, ExtTreeMap.getElem?_empty] at hrow
    cases hrow
  rw [weight, hempty]
  rfl

theorem weight_erase (h : table[key]? = some value) :
    weight size (table.erase key) + size value = weight size table := by
  rw [weight, weight, ((toList_perm h).map _).sum_eq, List.map_cons, List.sum_cons, Nat.add_comm]

theorem le_weight : table[key]?.elim 0 size ≤ weight size table := by
  cases h : table[key]? with
  | none => exact Nat.zero_le _
  | some value =>
      rw [← weight_erase h]
      exact Nat.le_add_left ..

theorem erase_insert : (table.insert key value).erase key = table.erase key := by
  refine ExtTreeMap.ext_getElem? fun n => ?_
  simp only [ExtTreeMap.getElem?_erase, ExtTreeMap.getElem?_insert]
  split <;> rfl

/-- The new value counts in place of the old one. -/
theorem weight_insert :
    weight size (table.insert key value) + (table[key]?.elim 0 size) =
      weight size table + size value := by
  have hinsert : weight size (table.erase key) + size value =
      weight size (table.insert key value) := by
    rw [← weight_erase ExtTreeMap.getElem?_insert_self, erase_insert]
  cases hold : table[key]? with
  | none =>
      rw [erase_of_none hold] at hinsert
      exact hinsert.symm
  | some old =>
      have herase := @weight_erase _ size _ _ _ hold
      simp only [Option.elim_some]
      omega

end FluentStf
