import FluentStf.Mpt.Cached

/-! Updates that return an error or find nothing to change. They leave the node with all its
caches as it was. -/
namespace FluentStf.Mpt

namespace CachedNode

/-- The operation returned an error or found nothing to change. -/
def Refused (result : Except Fault Bool) : Prop :=
  result = .ok false ∨ ∃ e, result = .error (.error e)

theorem not_refused_ok_true : ¬ Refused (.ok true) := by
  simp [Refused]

theorem not_refused_panic : ¬ Refused (.error .panic) := by
  simp [Refused]

/-- The path of a node is read, or the process panics. -/
theorem not_refused_of_prefixNibs {path : Bytes} {e : Fault} (h : prefixNibs path = .error e) :
    ¬ Refused (.error e) := by
  cases path with
  | nil =>
      cases h
      exact not_refused_panic
  | cons first tail => cases h

/-- A node whose path is put together with another one. -/
theorem not_refused_joined {path : Bytes} {old : CachedNode} {joined : List Nibble → CachedNode} :
    ¬ Refused (match prefixNibs path with
      | .error e => (.error e, old)
      | .ok nibs => (.ok true, joined nibs) : Except Fault Bool × CachedNode).1 := by
  split
  · next h => exact not_refused_of_prefixNibs h
  · exact not_refused_ok_true

theorem afterChild_fst (cache : CachedReference) (result : Except Fault Bool)
    (node : CachedReference → CachedNode) : (afterChild cache result node).1 = result := by
  unfold afterChild
  split <;> rfl

theorem afterChild_of_refused {cache : CachedReference} {result : Except Fault Bool}
    {node : CachedReference → CachedNode} (h : Refused result) :
    (afterChild cache result node).2 = node cache := by
  unfold afterChild
  split
  · exact (not_refused_ok_true h).elim
  · rfl

theorem not_refused_split {node old : CachedNode} {selfNibs keyNibs : List Nibble}
    {commonLen : Nat} {value : Bytes} :
    ¬ Refused (split node selfNibs commonLen old keyNibs value).1 := by
  unfold split
  split
  · exact not_refused_ok_true
  · exact not_refused_panic

theorem insertInternal_of_refused {node : CachedNode} {keyNibs : List Nibble} {value : Bytes}
    (h : Refused (node.insertInternal keyNibs value).1) :
    (node.insertInternal keyNibs value).2 = node := by
  induction node generalizing keyNibs with
  | Null cache => exact (not_refused_ok_true h).elim
  | Leaf cache path oldValue =>
      simp only [insertInternal] at h ⊢
      split at h
      · rfl
      · split_ifs at h ⊢
        · rfl
        · exact (not_refused_ok_true h).elim
        · rfl
        · exact (not_refused_split h).elim
  | Digest cache digest => rfl
  | Extension cache path child ih =>
      simp only [insertInternal] at h ⊢
      split at h
      · rfl
      · split_ifs at h ⊢
        · rw [afterChild_fst] at h
          rw [afterChild_of_refused h, ih h]
        · rfl
        · exact (not_refused_split h).elim
  | Branch cache children ih =>
      cases keyNibs with
      | nil => rfl
      | cons i tail =>
          simp only [insertInternal, afterChild_fst] at h ⊢
          rw [afterChild_of_refused h]
          cases hchild : children i with
          | none =>
              rw [hchild] at h
              exact (not_refused_ok_true h).elim
          | some child =>
              rw [hchild] at h
              have hsame : (insertChild (some child) tail value).2 = children i := by
                rw [hchild]
                exact congrArg some (ih i child hchild h)
              rw [hsame, Function.update_eq_self]

theorem not_refused_collapse (children : Nibble → Option CachedNode) :
    ¬ Refused (collapse children).1 := by
  unfold collapse
  split
  · exact not_refused_panic
  · split
    · exact not_refused_joined
    · exact not_refused_joined
    · exact not_refused_ok_true
    · exact not_refused_ok_true
    · exact not_refused_panic
  · exact not_refused_ok_true

theorem not_refused_mergeExtension (path : Bytes) (selfNibs : List Nibble) (child : CachedNode) :
    ¬ Refused (mergeExtension path selfNibs child).1 := by
  unfold mergeExtension
  split
  · exact not_refused_ok_true
  · exact not_refused_joined
  · exact not_refused_joined
  · exact not_refused_ok_true
  · exact not_refused_ok_true

theorem deleteInternal_of_refused {node : CachedNode} {keyNibs : List Nibble}
    (h : Refused (node.deleteInternal keyNibs).1) : (node.deleteInternal keyNibs).2 = node := by
  induction node generalizing keyNibs with
  | Null cache => rfl
  | Leaf cache path value =>
      simp only [deleteInternal] at h ⊢
      split at h
      · rfl
      · split_ifs at h ⊢
        · rfl
        · exact (not_refused_ok_true h).elim
  | Digest cache digest => rfl
  | Extension cache path child ih =>
      simp only [deleteInternal] at h ⊢
      split at h
      · rfl
      · split at h
        · split at h
          · exact (not_refused_mergeExtension _ _ _ h).elim
          · exact congrArg (Extension cache path) (ih h)
        · rfl
  | Branch cache children ih =>
      cases keyNibs with
      | nil => rfl
      | cons i tail =>
          simp only [deleteInternal] at h ⊢
          split at h
          · exact (not_refused_collapse _ h).elim
          · have hsame : (deleteChild (children i) tail).2 = children i := by
              cases hchild : children i with
              | none => rfl
              | some child =>
                  rw [hchild] at h
                  simp only [deleteChild] at h ⊢
                  split at h
                  · exact (not_refused_ok_true h).elim
                  · exact congrArg some (ih i child hchild h)
            rw [hsame, Function.update_eq_self]

end CachedNode

/-- An update that answers `false` or an error leaves the tree as it is, with its caches, and so
its hash. This holds for every tree, also one with unresolved or malformed nodes. -/
theorem refused_update_keeps_node (keccak : Bytes → B256) (node : CachedNode) (key value : Bytes) :
    (CachedNode.Refused (node.insert key value).1 →
        (node.insert key value).2 = node ∧
          ((node.insert key value).2.hash keccak).1 = (node.hash keccak).1) ∧
      (CachedNode.Refused (node.delete key).1 →
        (node.delete key).2 = node ∧
          ((node.delete key).2.hash keccak).1 = (node.hash keccak).1) := by
  constructor
  · intro h
    have hsame : (node.insert key value).2 = node := by
      unfold CachedNode.insert at h ⊢
      split_ifs at h ⊢
      · rfl
      · exact CachedNode.insertInternal_of_refused h
    exact ⟨hsame, by rw [hsame]⟩
  · intro h
    have hsame : (node.delete key).2 = node := CachedNode.deleteInternal_of_refused h
    exact ⟨hsame, by rw [hsame]⟩

def hiddenDigest : B256 :=
  .ofNat 0x640f987e349a18e7eb07c14f9f79fdc3b69449402a2aca7edf3d3c36527a000a

/-- A branch with an unresolved child. -/
def partialBranch : CachedNode :=
  .Branch none (CachedNode.splitChildren 1 (.Digest none hiddenDigest) 2 (.Leaf none [0x35] [7]))

def partialKeccak : Bytes → B256 :=
  tableHash [([0xf3, 0x80, 0xa0] ++ hiddenDigest.bytes ++ [0xc2, 0x35, 7] ++
      List.replicate 14 0x80,
    .ofNat 0xe4e38a76ab6fd9d58c2c7c08c5e970e8fee3db24b5e4cf7d2c27de622389328c)]

theorem refused_update_keeps_partialBranch :
    (partialBranch.insert [0x12] [9]).2 = partialBranch ∧
      ((partialBranch.insert [0x12] [9]).2.hash partialKeccak).1 =
        .ofNat 0xe4e38a76ab6fd9d58c2c7c08c5e970e8fee3db24b5e4cf7d2c27de622389328c ∧
      (partialBranch.delete [0x13]).2 = partialBranch ∧
      (partialBranch.delete [0x26]).2 = partialBranch := by
  have hinsert := (refused_update_keeps_node partialKeccak partialBranch [0x12] [9]).1
    (.inr ⟨_, rfl⟩)
  have hdelete := fun key => (refused_update_keeps_node partialKeccak partialBranch key [9]).2
  have hhash : (partialBranch.hash partialKeccak).1 =
      .ofNat 0xe4e38a76ab6fd9d58c2c7c08c5e970e8fee3db24b5e4cf7d2c27de622389328c := by
    decide +kernel
  exact ⟨hinsert.1, hinsert.2.trans hhash, (hdelete [0x13] (.inr ⟨_, rfl⟩)).1,
    (hdelete [0x26] (.inl rfl)).1⟩

end FluentStf.Mpt
