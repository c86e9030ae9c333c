import FluentStf.Radix.Trie
import Mathlib.Data.List.Nodup

/-! The values of a trie as a list, in the order in which a search that goes through the
letters in a given order comes across them. -/
namespace Radix

variable {α V D : Type*}

/-- A list of keys and values, moved below a path. -/
def under (p : List α) (entries : List (List α × V)) : List (List α × V) :=
  entries.map fun entry => (p ++ entry.1, entry.2)

theorem under_nil_path (entries : List (List α × V)) : under [] entries = entries := by
  simp [under]

theorem under_append (p q : List α) (entries : List (List α × V)) :
    under (p ++ q) entries = under p (under q entries) := by
  simp [under]

theorem under_flatMap {ι : Type*} (p : List α) (l : List ι) (f : ι → List (List α × V)) :
    under p (l.flatMap f) = l.flatMap fun i => under p (f i) :=
  List.map_flatMap

theorem mem_under {p k : List α} {v : V} {entries : List (List α × V)} :
    (k, v) ∈ under p entries ↔ ∃ r, k = p ++ r ∧ (r, v) ∈ entries := by
  simp only [under, List.mem_map, Prod.mk.injEq, Prod.exists]
  constructor
  · rintro ⟨r, w, hmem, rfl, rfl⟩
    exact ⟨r, rfl, hmem⟩
  · rintro ⟨r, rfl, hmem⟩
    exact ⟨r, v, hmem, rfl, rfl⟩

theorem keys_under (p : List α) (entries : List (List α × V)) :
    (under p entries).map Prod.fst = (entries.map Prod.fst).map (p ++ ·) := by
  simp [under]

namespace Trie

variable (letters : List α)

/-- The keys and values of all leaves. -/
def leaves : Trie α V D → List (List α × V)
  | null => []
  | leaf path value => [(path, value)]
  | ext path child => under path child.leaves
  | branch children => letters.flatMap fun a => under [a] (children a).leaves
  | stub _ => []

variable {letters}

/-- No key is listed twice. -/
theorem nodup_leaves (hletters : letters.Nodup) (t : Trie α V D) :
    ((t.leaves letters).map Prod.fst).Nodup := by
  induction t with
  | null => exact List.nodup_nil
  | stub d => exact List.nodup_nil
  | leaf p v => exact List.nodup_singleton p
  | ext p c ih =>
      rw [leaves, keys_under]
      exact ih.map (List.append_right_injective p)
  | branch f ih =>
      rw [leaves, List.map_flatMap, List.nodup_flatMap]
      simp only [keys_under]
      refine ⟨fun a _ => (ih a).map (List.append_right_injective [a]), ?_⟩
      -- The first letter tells the children apart.
      refine hletters.imp fun hab => List.disjoint_left.mpr ?_
      intro k hk hk'
      obtain ⟨q, -, rfl⟩ := List.mem_map.mp hk
      obtain ⟨r, -, heq⟩ := List.mem_map.mp hk'
      exact hab (List.cons.inj heq).1.symm

variable [DecidableEq α]

/-- The list holds all values, and nothing else. -/
theorem mem_leaves (hletters : ∀ a, a ∈ letters) {t : Trie α V D} {k : List α} {v : V} :
    (k, v) ∈ t.leaves letters ↔ t.entry k = some (.inl v) := by
  induction t generalizing k with
  | null => simp [leaves]
  | stub d => by_cases hk : k = [] <;> simp [leaves, entry, hk]
  | leaf p w =>
      by_cases hk : k = p
      · simp [leaves, entry, hk, eq_comm]
      · simp [leaves, entry, hk]
  | ext p c ih =>
      rw [leaves, mem_under]
      constructor
      · rintro ⟨r, rfl, hr⟩
        rw [entry_ext_append]
        exact ih.mp hr
      · intro hk
        obtain ⟨r, rfl, hr⟩ := entry_ext_eq_some.mp hk
        exact ⟨r, rfl, ih.mpr hr⟩
  | branch f ih =>
      simp only [leaves, List.mem_flatMap, mem_under]
      constructor
      · rintro ⟨a, -, r, rfl, hr⟩
        exact (ih a).mp hr
      · intro hk
        cases k with
        | nil => cases hk
        | cons a r => exact ⟨a, hletters a, r, rfl, (ih a).mpr hk⟩

end Trie

end Radix
