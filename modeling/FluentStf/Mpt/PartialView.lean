import FluentStf.Mpt.Encoding
import FluentStf.Radix.View

/-! Partial views of tries. A node shows a part of an honest trie when some
subtries are replaced by their digests. Showing a part keeps the reference, and
as long as the hash function does not collide, only parts have the reference. -/
namespace FluentStf.Mpt

open Radix MptNode

/-- A trie without hidden parts. -/
def Open (t : NibbleTrie) : Prop := ∀ q d, t.entry q ≠ some (.inr d)

namespace Open

theorem ne_stub {t : NibbleTrie} (h : Open t) (d : B256) : t ≠ .stub d := by
  rintro rfl
  exact h [] d (by simp [Trie.entry])

theorem ext_child {p : List Nibble} {c : NibbleTrie} (h : Open (.ext p c)) : Open c := by
  intro q d
  simpa using h (p ++ q) d

theorem branch_child {f : Nibble → NibbleTrie} (h : Open (.branch f)) (i : Nibble) : Open (f i) :=
  fun q d => h (i :: q) d

end Open

section

variable {keccak : Bytes → B256}

theorem eq_null_of_reference {node : MptNode}
    (h : node.reference keccak = MptNode.Null.reference keccak) : node = .Null := by
  have hnull : MptNode.Null.reference keccak = .Bytes [EMPTY_STRING_CODE] := rfl
  rw [hnull] at h
  rcases reference_cases keccak node with ⟨d, hd⟩ | ⟨hn, _⟩ | ⟨items, hi, _⟩
  · rw [hd] at h
    cases h
  · exact hn
  · rw [hi] at h
    exact (empty_ne_encodeList items (MptNodeReference.Bytes.inj h).symm).elim

theorem toNode_eq_null {t : NibbleTrie} (h : toNode t = .Null) : t = .null := by
  cases t <;> simp [toNode] at h ⊢

theorem encodings_toNode_ext (p : List Nibble) (c : NibbleTrie) :
    (toNode c).encodings keccak ⊆ (toNode (.ext p c)).encodings keccak :=
  encodings_extension keccak _ _

theorem encodings_toNode_branch {f : Nibble → NibbleTrie} {i : Nibble} (h : f i ≠ .null) :
    (toNode (f i)).encodings keccak ⊆ (toNode (.branch f)).encodings keccak :=
  encodings_branch keccak (toChild_of_ne h)

theorem subset_of_children {a b c d : List Bytes} (hac : a ⊆ c) (hbd : b ⊆ d) :
    a ++ b ⊆ c ++ d := by
  intro encoded h
  rcases List.mem_append.mp h with h | h
  · exact List.mem_append_left _ (hac h)
  · exact List.mem_append_right _ (hbd h)

theorem injOn_hashed {keccak : Bytes → B256} {encodings : List Bytes}
    (h : Set.InjOn keccak {encoded | encoded ∈ encodings}) :
    Set.InjOn keccak {encoded | encoded ∈ hashed encodings} :=
  h.mono fun _ hmem => (mem_hashed.mp hmem).1

theorem injOn_hashed_mono {keccak : Bytes → B256} {a b : List Bytes}
    (h : Set.InjOn keccak {encoded | encoded ∈ hashed b}) (hab : a ⊆ b) :
    Set.InjOn keccak {encoded | encoded ∈ hashed a} :=
  h.mono fun _ hmem => mem_hashed.mpr
    ⟨hab (mem_hashed.mp hmem).1, (mem_hashed.mp hmem).2⟩

/-- Path bytes keep honest tries from passing for one of the other kind. -/
theorem Mimics.honest {s t : NibbleTrie} (h : Mimics keccak (toNode s) t) :
    (s = .null ∧ t = .null) ∨
      (∃ p v, s = .leaf p v ∧ t = .leaf p v) ∨
      (∃ p b c, s = .ext p b ∧ t = .ext p c ∧
        (toNode b).reference keccak = (toNode c).reference keccak) ∨
      ∃ g f, s = .branch g ∧ t = .branch f ∧
        ∀ i, (toNode (g i)).reference keccak = (toNode (f i)).reference keccak := by
  generalize hw : toNode s = w at h
  cases h with
  | null => exact .inl ⟨toNode_eq_null hw, rfl⟩
  | leaf p v =>
      cases s <;> simp only [toNode, reduceCtorEq, MptNode.Leaf.injEq] at hw
      rw [(toEncodedPath_inj hw.1).1, hw.2]
      exact .inr (.inl ⟨p, v, rfl, rfl⟩)
  | extension hchild =>
      cases s <;> simp only [toNode, reduceCtorEq, MptNode.Extension.injEq] at hw
      obtain ⟨hpath, rfl⟩ := hw
      rw [(toEncodedPath_inj hpath).1]
      exact .inr (.inr (.inl ⟨_, _, _, rfl, rfl, hchild⟩))
  | branch hchildren =>
      cases s <;> simp only [toNode, reduceCtorEq, MptNode.Branch.injEq] at hw
      refine .inr (.inr (.inr ⟨_, _, rfl, rfl, fun i => ?_⟩))
      rw [← hchildren i, ← hw]
      exact congrArg _ (orNull_toChild _).symm
  | extensionForLeaf hv =>
      cases s <;> simp only [toNode, reduceCtorEq, MptNode.Extension.injEq] at hw
      cases (toEncodedPath_inj hw.1).2
  | leafForExtension hv h =>
      cases s <;> simp only [toNode, reduceCtorEq, MptNode.Leaf.injEq] at hw
      cases (toEncodedPath_inj hw.1).2

end

section

variable (keccak : Bytes → B256)

/-- A digest stands for the tries that are referred to by it. -/
def Hides (d : B256) (t : NibbleTrie) : Prop := (toNode t).reference keccak = .Digest d

theorem not_hides_null (d : B256) : ¬Hides keccak d .null := by
  intro h
  cases h

variable {keccak}

theorem toChild_reference (t : NibbleTrie) :
    (toChild t).map (reference keccak) =
      if isNull t then none else some ((toNode t).reference keccak) := by
  rw [toChild]
  split <;> rfl

/-- A view has the reference of the whole. -/
theorem view_reference {w t : NibbleTrie} (h : Trie.View (Hides keccak) w t) :
    (toNode w).reference keccak = (toNode t).reference keccak := by
  induction h with
  | stub hd => exact hd.symm
  | null => rfl
  | leaf p v => rfl
  | ext hview ih => simp only [toNode, reference_extension, encode, ih]
  | branch hview ih =>
      have hnull : ∀ i, isNull _ = isNull _ := fun i =>
        Bool.eq_iff_iff.mpr (isNull_iff.trans
          ((Trie.view_null_iff (not_hides_null keccak) (hview i)).trans isNull_iff.symm))
      simp only [toNode_branch, reference_branch, encode, toChild_reference, ih,
        hnull]

/-- Where the hash function does not collide, whatever has the reference of an
honest trie is a view of it. -/
theorem view_of_reference {w t : NibbleTrie} (ht : Open t) (hfits : Fits t)
    (hinj : Set.InjOn keccak {encoded | encoded ∈
      hashed ((toNode w).encodings keccak ++ (toNode t).encodings keccak)})
    (h : (toNode w).reference keccak = (toNode t).reference keccak) :
    Trie.View (Hides keccak) w t := by
  -- Unless the whole is hidden, the two encodings are equal and can be taken apart.
  have cases_of : ∀ {w t : NibbleTrie}, Open t → Fits t →
      Set.InjOn keccak {encoded | encoded ∈
        hashed ((toNode w).encodings keccak ++ (toNode t).encodings keccak)} →
      (toNode w).reference keccak = (toNode t).reference keccak →
      Trie.View (Hides keccak) w t ∨ Mimics keccak (toNode w) t := by
    intro w t ht hfits hinj h
    by_cases hw : (toNode w).isDigest = false
    · exact .inr (mimics_of_encode hfits ht.ne_stub hw
        (encode_eq_of_reference hw (isDigest_toNode ht.ne_stub) hinj h))
    · cases w with
      | stub d => exact .inl (.stub h.symm)
      | _ => exact (hw rfl).elim
  induction t generalizing w with
  | stub d => exact (ht.ne_stub d rfl).elim
  | null =>
      rcases cases_of ht hfits hinj h with hview | hm
      · exact hview
      · have hcases : w = .null := by simpa using hm.honest
        rw [hcases]
        exact .null
  | leaf p v =>
      rcases cases_of ht hfits hinj h with hview | hm
      · exact hview
      · have hcases : w = .leaf p v := by simpa using hm.honest
        rw [hcases]
        exact .leaf p v
  | ext p c ih =>
      rcases cases_of ht hfits hinj h with hview | hm
      · exact hview
      · have hcases := hm.honest
        simp only [reduceCtorEq, and_false, false_and, exists_false, false_or, or_false,
          Trie.ext.injEq] at hcases
        obtain ⟨_, b, _, rfl, ⟨rfl, rfl⟩, hchild⟩ := hcases
        exact .ext (ih ht.ext_child hfits.2 (injOn_hashed_mono hinj (subset_of_children
          (encodings_toNode_ext _ b) (encodings_toNode_ext _ c))) hchild)
  | branch f ih =>
      rcases cases_of ht hfits hinj h with hview | hm
      · exact hview
      · have hcases := hm.honest
        simp only [reduceCtorEq, and_false, false_and, exists_false, false_or,
          Trie.branch.injEq] at hcases
        obtain ⟨g, _, rfl, rfl, hchildren⟩ := hcases
        refine .branch fun i => ?_
        have hi := hchildren i
        -- An absent child is recognised without looking at any hash.
        by_cases hg : g i = .null
        · rw [hg] at hi ⊢
          rw [toNode_eq_null (eq_null_of_reference hi.symm)]
          exact .null
        by_cases hf : f i = .null
        · rw [hf] at hi
          exact (hg (toNode_eq_null (eq_null_of_reference hi))).elim
        · exact ih i (ht.branch_child i) (hfits i) (injOn_hashed_mono hinj (subset_of_children
            (encodings_toNode_branch hg) (encodings_toNode_branch hf))) hi

/-- A view without hidden parts is the whole. -/
theorem view_eq {w t : NibbleTrie} (hw : Open w) (h : Trie.View (Hides keccak) w t) : w = t := by
  induction h with
  | stub hd => exact (hw.ne_stub _ rfl).elim
  | null => rfl
  | leaf p v => rfl
  | ext hview ih => rw [ih hw.ext_child]
  | branch hview ih => exact congrArg Trie.branch (funext fun i => ih i (hw.branch_child i))

end

end FluentStf.Mpt
