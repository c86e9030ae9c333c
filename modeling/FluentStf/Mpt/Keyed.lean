import FluentStf.Mpt.RootHash

/-! Honest tries whose keys all have the same length, as those of hashed
addresses and hashed slots. -/
namespace FluentStf.Mpt

open Radix

/-- Honest tries with keys of one length and values that are not empty. -/
structure Keyed (n : Nat) (t : NibbleTrie) : Prop where
  canonical : t.Canonical
  opened : Open t
  fits : Fits t
  length : ∀ q x, t.entry q = some x → q.length = n
  value : ∀ q v, t.entry q = some (.inl v) → v ≠ []

namespace Keyed

variable {n : Nat}

theorem exists_value {t : NibbleTrie} (h : Keyed n t) (hne : t ≠ .null) :
    ∃ q v, t.entry q = some (.inl v) := by
  obtain ⟨q, x, hq⟩ := h.canonical.exists_entry hne
  cases x with
  | inl v => exact ⟨q, v, hq⟩
  | inr d => exact (h.opened q d hq).elim

theorem branch_child {f : Nibble → NibbleTrie} (h : Keyed (n + 1) (.branch f)) (i : Nibble) :
    Keyed n (f i) where
  canonical := h.canonical.1 i
  opened := h.opened.branch_child i
  fits := h.fits i
  length q x hq := by simpa using h.length (i :: q) x hq
  value q v hq := h.value (i :: q) v hq

theorem ext_child {p : List Nibble} {c : NibbleTrie} (h : Keyed (p.length + n) (.ext p c)) :
    Keyed n c where
  canonical := h.canonical.2.2
  opened := h.opened.ext_child
  fits := h.fits.2
  length q x hq := by simpa using h.length (p ++ q) x (by simpa using hq)
  value q v hq := h.value (p ++ q) v (by simpa using hq)

/-- Keys of a branch have a first letter. -/
theorem branch_length {f : Nibble → NibbleTrie} (h : Keyed n (.branch f)) : ∃ m, n = m + 1 := by
  obtain ⟨q, v, hq⟩ := h.exists_value (by simp)
  cases q with
  | nil => simp at hq
  | cons a q => exact ⟨q.length, (h.length _ _ hq).symm.trans (by simp)⟩

theorem ext_length {p : List Nibble} {c : NibbleTrie} (h : Keyed n (.ext p c)) :
    ∃ m, n = p.length + m := by
  obtain ⟨q, v, hq⟩ := h.exists_value (by simp)
  obtain ⟨r, rfl, _⟩ := Trie.entry_ext_eq_some.mp hq
  exact ⟨r.length, (h.length _ _ hq).symm.trans (by simp)⟩

theorem lookup {t : NibbleTrie} (h : Keyed n t) (k : List Nibble) :
    t.lookup k = .ok ((t.entry k).bind Sum.getLeft?) :=
  Trie.lookup_eq_entry fun q d _ => h.opened q d

/-- Every key of the right length can be written. -/
theorem free {t : NibbleTrie} (h : Keyed n t) {k : List Nibble} (hk : k.length = n) : t.Free k := by
  intro q x hq hbeside
  have hlength : q.length = k.length := (h.length q x hq).trans hk.symm
  cases x with
  | inr d => exact (h.opened q d hq).elim
  | inl v =>
      refine ⟨?_, v, rfl⟩
      rcases hbeside with hle | hle
      · exact hle.eq_of_length hlength
      · exact (hle.eq_of_length hlength.symm).symm

end Keyed

/-- Paths of 64 nibbles are the paths of 32-byte keys. -/
theorem exists_key {k : List Nibble} (h : k.length = 64) :
    ∃ key : Bytes, key.length = 32 ∧ toNibs key = k := by
  have hk := toNibs_packNibs k (by omega)
  refine ⟨packNibs k, ?_, hk⟩
  have := toNibs_length (packNibs k)
  rw [hk] at this
  omega

theorem trieOf_keyed {calls : List Call}
    (hcalls : ∀ call ∈ calls, call.Allowed ∧ call.Fits ∧ call.key.length = 32) :
    ∃ t, trieOf calls = toNode t ∧ Keyed 64 t := by
  have hkeys : PrefixFree {key | ∃ call ∈ calls, call.key = key} :=
    prefixFree_calls fun call hc => (hcalls call hc).2.2
  obtain ⟨t, hnode, ht⟩ := trieOf_represents calls hkeys fun call hc =>
    ⟨(hcalls call hc).1, call, hc, rfl⟩
  -- Every entry was brought by an insertion of the sequence.
  have source : ∀ q x, t.entry q = some x →
      ∃ key value, q = toNibs key ∧ x = .inl value ∧ .insert key value ∈ calls := by
    intro q x hq
    obtain ⟨key, rfl⟩ := ht.key q x hq
    rw [ht.entry, Option.map_eq_some_iff] at hq
    obtain ⟨value, hvalue, rfl⟩ := hq
    exact ⟨key, value, rfl, rfl, insert_mem_of_contents hvalue⟩
  refine ⟨t, hnode, ht.canonical, ht.no_stub, ht.fits fun call hc => (hcalls call hc).2.1, ?_, ?_⟩
  · intro q x hq
    obtain ⟨key, value, rfl, _, hmem⟩ := source q x hq
    have hlength : key.length = 32 := (hcalls _ hmem).2.2
    rw [toNibs_length, hlength]
  · intro q v hq
    obtain ⟨key, value, rfl, hx, hmem⟩ := source q _ hq
    cases hx
    exact (hcalls _ hmem).1

/-- Two accounts whose hashed addresses share their first nibble only. -/
def twoAccounts : List Call :=
  [.insert (List.replicate 32 0) [1], .insert (1 :: List.replicate 31 0) [2]]

/-- Keccak-256 of the leaves of `twoAccounts`, of their branch and of the root, and
of the two roots a deletion of the first account can give: an extension onto the
second leaf, and that leaf with its path made longer. -/
def twoAccountsDigests : List (Bytes × B256) :=
  let first : B256 := .ofNat 0x94a72b54d84745a6dd306c333da1c9481ca12f3576d491e1030a50da3137c92a
  let second : B256 := .ofNat 0x5fb02495a793b00a15a7de4480ec2c10db80c8a43fc32bbcc4e87f6812ad931d
  let branch : B256 := .ofNat 0xf290f1dd05ef44400aeb5d92aa26dd9af9d55edf51dec10a9779a66093c42acf
  [([EMPTY_STRING_CODE], EMPTY_ROOT),
    ([0xe2, 0xa0, 0x20] ++ List.replicate 31 0 ++ [1], first),
    ([0xe2, 0xa0, 0x20] ++ List.replicate 31 0 ++ [2], second),
    ([0xf8, 0x51, 0xa0] ++ first.bytes ++ [0xa0] ++ second.bytes ++ List.replicate 15 0x80, branch),
    ([0xe2, 0x10, 0xa0] ++ branch.bytes,
      .ofNat 0x20d80ca8161164d5aecddfa624e391edd685f7a1ae3bbbc0b36fea85f4ba8f4f),
    ([0xe4, 0x82, 0x00, 0x01, 0xa0] ++ second.bytes,
      .ofNat 0x189e4359ccb1d3219d04404c81a5cb04b653f6d920da5105168004e5083bd8f2),
    ([0xe3, 0xa1, 0x20, 0x01] ++ List.replicate 31 0 ++ [2],
      .ofNat 0xd1b23e5e9defe3af8bc6e727976b890b40bbe43010b5bc551d5d63eb69ad3c09)]

end FluentStf.Mpt
