import FluentStf.Mpt.Operations
import FluentStf.Radix.Update

/-! The operations of the source on nodes are the operations of path-compressed
tries: nodes whose path bytes were written by the trie represent canonical
tries over nibbles, and every operation acts on the represented trie. -/
namespace FluentStf.Mpt

open Radix MptNode

/-- Tries with nibble paths, byte values and digests for hidden subtries. -/
abbrev NibbleTrie := Trie Nibble Bytes B256

def isNull : NibbleTrie → Bool
  | .null => true
  | _ => false

variable {f : Nibble → NibbleTrie} {t : NibbleTrie} {k : List Nibble}

theorem isNull_iff : isNull t = true ↔ t = .null := by
  cases t <;> simp [isNull]

/-- The node that represents a trie. -/
def toNode : NibbleTrie → MptNode
  | .null => .Null
  | .leaf path value => .Leaf (toEncodedPath path true) value
  | .ext path child => .Extension (toEncodedPath path false) (toNode child)
  | .branch children =>
      .Branch fun i => if isNull (children i) then none else some (toNode (children i))
  | .stub digest => .Digest digest

/-- The entry of the children array that represents a trie. -/
def toChild (t : NibbleTrie) : Option MptNode := if isNull t then none else some (toNode t)

theorem toNode_branch (f : Nibble → NibbleTrie) :
    toNode (.branch f) = .Branch fun i => toChild (f i) := rfl

@[simp] theorem toChild_null : toChild .null = none := rfl

theorem toChild_of_ne (h : t ≠ .null) : toChild t = some (toNode t) := by
  rw [toChild, if_neg (mt isNull_iff.mp h)]

theorem isEmpty_toNode (t : NibbleTrie) : (toNode t).isEmpty = isNull t := by
  cases t <;> rfl

theorem update_toChild (f : Nibble → NibbleTrie) (i : Nibble) (c : NibbleTrie) :
    Function.update (fun j => toChild (f j)) i (toChild c) =
      fun j => toChild (Function.update f i c j) := by
  funext j
  by_cases h : j = i
  · subst h
    simp
  · simp [h]

/-- A lookup that stops at a digest reports it. -/
def lookupResult : Except B256 (Option Bytes) → Except Fault (Option Bytes)
  | .ok value => .ok value
  | .error digest => .error (.error (.NodeNotResolved digest))

theorem getInternal_toNode (t : NibbleTrie) (k : List Nibble) :
    (toNode t).getInternal k = lookupResult (t.lookup k) := by
  induction t generalizing k with
  | null => rfl
  | stub d => rfl
  | leaf p v =>
      simp only [toNode, getInternal, prefixNibs_toEncodedPath, Trie.lookup]
      split <;> rfl
  | ext p c ih =>
      simp only [toNode, getInternal, prefixNibs_toEncodedPath, Trie.lookup]
      cases k.dropPrefix? p with
      | none => rfl
      | some tail => exact ih tail
  | branch f ih =>
      rw [toNode_branch]
      cases k with
      | nil => rfl
      | cons i tail =>
          simp only [getInternal, Trie.lookup]
          by_cases hi : f i = .null
          · rw [hi]
            rfl
          · rw [toChild_of_ne hi, getChild]
            exact ih i tail

/-- The branch that a split leaves behind, below the common part of the paths. -/
theorem splitNode_toNode (c l : List Nibble) (a : Nibble) (f : Nibble → NibbleTrie) :
    splitNode (c ++ a :: l) c.length (toNode (.branch f)) =
      toNode (Trie.graft c (.branch f)) := by
  cases c with
  | nil => simp [splitNode]
  | cons x c =>
      rw [splitNode, if_pos (by simp), List.take_left,
        Trie.graft_node (List.cons_ne_nil x c) (Trie.isNode_branch f)]
      rfl

theorem splitChildren_toNode {a b : Nibble} (s t : NibbleTrie) (hs : s ≠ .null) (ht : t ≠ .null) :
    splitChildren a (toNode s) b (toNode t) = fun i => toChild (Trie.pair a s b t i) := by
  rw [splitChildren, ← toChild_of_ne hs, ← toChild_of_ne ht]
  funext i
  by_cases hb : i = b
  · subst hb
    rw [Trie.pair_right, Function.update_self]
  · by_cases ha : i = a
    · subst ha
      rw [Function.update_of_ne hb, Function.update_self, Trie.pair_left hb]
    · rw [Function.update_of_ne hb, Function.update_of_ne ha, Trie.pair_other ha hb, toChild_null]

/-- The way an extension hangs below the new branch of a split. -/
theorem oldChild_toNode (l : List Nibble) {c : NibbleTrie} (hc : c.IsNode) (n m : Nat)
    (h : m = n + l.length) :
    (if n < m then MptNode.Extension (toEncodedPath l false) (toNode c) else toNode c) =
      toNode (Trie.graft l c) := by
  cases l with
  | nil => simp [h]
  | cons x l =>
      rw [if_pos (by simp [h]), Trie.graft_node (List.cons_ne_nil x l) hc]
      rfl

/-- Whether writing a value changes an entry. -/
def differs (entry : Option (Bytes ⊕ B256)) (value : Bytes) : Bool :=
  decide (entry ≠ some (.inl value))

/-- An insertion of the source succeeds where that of the trie does, and tells
whether the entry was changed. -/
theorem insertInternal_toNode {t' : NibbleTrie} {v : Bytes} (ht : t.Canonical)
    (h : t.insert v k = some t') :
    (toNode t).insertInternal k v = (.ok (differs (t.entry k) v), toNode t') := by
  induction t generalizing k t' with
  | null =>
      cases h
      rfl
  | stub d => simp [Trie.insert] at h
  | leaf p w =>
      simp only [toNode, insertInternal, prefixNibs_toEncodedPath]
      obtain ⟨rfl, rfl⟩ | ⟨c, a, l, b, r, hab, rfl, rfl, rfl⟩ := Trie.insert_leaf_cases h
      · by_cases hw : w = v <;> simp [hw, Trie.entry, toNode, differs]
      · have hne : (c ++ b :: r : List Nibble) ≠ c ++ a :: l := by
          simpa using fun h => absurd h.symm hab
        have hsplit := splitChildren_toNode (a := a) (b := b) (.leaf l w) (.leaf r v)
          (by simp) (by simp)
        have hnode := splitNode_toNode c l a (Trie.pair a (.leaf l w) b (.leaf r v))
        rw [toNode_branch, ← hsplit] at hnode
        simp only [lcp_fork hab, ← hnode]
        simp [Trie.entry, hne, toNode, differs]
  | ext p c ih =>
      simp only [toNode, insertInternal, prefixNibs_toEncodedPath]
      obtain ⟨s, c', rfl, hc', rfl⟩ | ⟨x, a, l, b, r, hab, rfl, rfl, rfl⟩ :=
        Trie.insert_ext_cases h
      · have hnode := Trie.insert_isNode ht.2.1 hc'
        simp [ih ht.2.2 hc', Trie.graft_node ht.1 hnode, toNode]
      · have hc0 : Trie.graft l c ≠ .null := by
          rw [Ne, Trie.graft_eq_null]
          rintro rfl
          exact ht.2.1
        have hentry : (Trie.ext (x ++ a :: l) c).entry (x ++ b :: r) = none :=
          Trie.entry_ext_none (not_prefix_fork hab x l r) c
        have hold := oldChild_toNode l ht.2.1 (x.length + 1) (x ++ a :: l).length (by simp; omega)
        have hsplit := splitChildren_toNode (a := a) (b := b) (Trie.graft l c) (.leaf r v)
          hc0 (by simp)
        have hnode := splitNode_toNode x l a (Trie.pair a (Trie.graft l c) b (.leaf r v))
        rw [toNode_branch, ← hsplit] at hnode
        simp only [lcp_fork hab, hentry]
        simp [← hnode, ← hold, toNode, differs]
  | branch f ih =>
      obtain ⟨i, k, c, rfl, hc, rfl⟩ := Trie.insert_branch_cases h
      rw [toNode_branch, toNode_branch, ← update_toChild]
      simp only [insertInternal, Trie.entry_branch_cons]
      by_cases hi : f i = .null
      · rw [hi] at hc ⊢
        cases hc
        rfl
      · have hstep := ih i (ht.1 i) hc
        have hc0 := (Trie.insert_spec (ht.1 i) hc).2.1
        simp only [toChild_of_ne hi, insertChild, hstep, toChild_of_ne hc0]

/-- Where an insertion of the trie stops, that of the source returns an error
and leaves the node as it was. -/
theorem insertInternal_stops {v : Bytes} (h : t.insert v k = none) :
    ∃ e, (toNode t).insertInternal k v = (.error (.error e), toNode t) := by
  induction t generalizing k with
  | null => cases h
  | stub d => exact ⟨_, rfl⟩
  | leaf p w =>
      refine ⟨.ValueInBranch, ?_⟩
      simp only [toNode, insertInternal, prefixNibs_toEncodedPath]
      rcases split_cases p k with ⟨s, rfl⟩ | ⟨a, q, rfl⟩ | ⟨c, a, l, b, r, hab, rfl, rfl⟩
      · cases s with
        | cons a s => simp
        | nil => simp only [Trie.insert, split_append, reduceCtorEq] at h
      · simp
      · simp only [Trie.insert, split_fork hab, reduceCtorEq] at h
  | ext p c ih =>
      simp only [toNode, insertInternal, prefixNibs_toEncodedPath]
      rcases split_cases p k with ⟨s, rfl⟩ | ⟨a, q, rfl⟩ | ⟨x, a, l, b, r, hab, rfl, rfl⟩
      · simp only [Trie.insert, split_append, Option.map_eq_none_iff] at h
        obtain ⟨e, he⟩ := ih h
        exact ⟨e, by simp [he]⟩
      · exact ⟨.ValueInBranch, by simp⟩
      · simp only [Trie.insert, split_fork hab, reduceCtorEq] at h
  | branch f ih =>
      rw [toNode_branch]
      cases k with
      | nil => exact ⟨_, rfl⟩
      | cons i k =>
          simp only [Trie.insert, Option.map_eq_none_iff] at h
          have hi : f i ≠ .null := by
            intro hi
            rw [hi] at h
            cases h
          obtain ⟨e, he⟩ := ih i h
          refine ⟨e, ?_⟩
          simp only [insertInternal, toChild_of_ne hi, insertChild, he]
          rw [← toChild_of_ne hi, Function.update_eq_self]

/-- Exactly one position of a duplicate-free list yields a result. -/
private theorem filterMap_single {α β : Type*} {l : List α} {g : α → Option β} {a : α} {x : β}
    (hl : l.Nodup) (ha : a ∈ l) (hx : g a = some x) (hother : ∀ b, b ≠ a → g b = none) :
    l.filterMap g = [x] := by
  induction l with
  | nil => simp at ha
  | cons b l ih =>
      rw [List.nodup_cons] at hl
      by_cases hb : b = a
      · subst hb
        have hrest : l.filterMap g = [] := by
          rw [List.filterMap_eq_nil_iff]
          intro c hc
          apply hother
          rintro rfl
          exact hl.1 hc
        rw [List.filterMap_cons_some hx, hrest]
      · rw [List.filterMap_cons_none (hother b hb)]
        exact ih hl.2 ((List.mem_cons.mp ha).resolve_left (Ne.symm hb))

theorem remaining_single {a : Nibble} (ha : f a ≠ .null) (h : ∀ b, f b ≠ .null → b = a) :
    remaining (fun i => toChild (f i)) = [(a, toNode (f a))] := by
  apply filterMap_single (a := a) (List.nodup_finRange 16) (List.mem_finRange a)
  · simp only [toChild_of_ne ha, Option.map_some]
  · intro b hb
    have hnull : f b = .null := by
      by_contra hne
      exact hb (h b hne)
    simp only [hnull, toChild_null, Option.map_none]

theorem remaining_two {a b : Nibble} (hab : a ≠ b) (ha : f a ≠ .null) (hb : f b ≠ .null) :
    ∃ x y rest, remaining (fun i => toChild (f i)) = x :: y :: rest := by
  have mem : ∀ i, f i ≠ .null →
      (i, toNode (f i)) ∈ remaining (fun i => toChild (f i)) := by
    intro i hi
    exact List.mem_filterMap.mpr
      ⟨i, List.mem_finRange i, by simp only [toChild_of_ne hi, Option.map_some]⟩
  have hma := mem a ha
  have hmb := mem b hb
  match hr : remaining (fun i => toChild (f i)) with
  | [] => simp [hr] at hma
  | [x] =>
      rw [hr, List.mem_singleton] at hma hmb
      exact (hab (congrArg Prod.fst (hma.trans hmb.symm))).elim
  | x :: y :: rest => exact ⟨x, y, rest, rfl⟩

/-- Collapsing the children array of the source joins the children. -/
theorem collapse_toNode {a : Nibble} (ha : f a ≠ .null) :
    collapse (fun i => toChild (f i)) = (.ok true, toNode (Trie.join f)) := by
  rcases Trie.join_cases f with ⟨b, hb, he⟩ | ⟨⟨x, y, hxy, hx, hy⟩, he⟩
  · have hab : a = b := hb a ha
    subst hab
    rw [he, collapse, remaining_single ha hb]
    cases hfa : f a with
    | null => exact (ha hfa).elim
    | leaf p v => simp [toNode]
    | ext p c => simp [toNode]
    | branch g => rfl
    | stub d => rfl
  · obtain ⟨u, v, rest, hr⟩ := remaining_two hxy hx hy
    rw [he, collapse, hr, toNode_branch]

theorem mergeExtension_toNode {p : List Nibble} (hp : p ≠ []) (c : NibbleTrie) :
    mergeExtension (toEncodedPath p false) p (toNode c) =
      (.ok true, toNode (Trie.graft p c)) := by
  cases c with
  | null => simp [toNode, mergeExtension]
  | leaf q v => simp [toNode, mergeExtension]
  | ext q c => simp [toNode, mergeExtension]
  | branch f =>
      rw [Trie.graft_node hp (Trie.isNode_branch f)]
      rfl
  | stub d =>
      rw [Trie.graft_node hp (Trie.isNode_stub d)]
      rfl

/-- A deletion of the source succeeds where that of the trie does, and tells
whether the key was present. -/
theorem deleteInternal_toNode {t' : NibbleTrie} (ht : t.Canonical) (h : t.delete k = some t') :
    (toNode t).deleteInternal k = (.ok (t.entry k).isSome, toNode t') := by
  induction t generalizing k t' with
  | null =>
      cases h
      rfl
  | stub d => simp [Trie.delete] at h
  | leaf p w =>
      simp only [Trie.delete, Option.some.injEq] at h
      subst h
      by_cases hk : k = p
      · simp [hk, toNode, deleteInternal, Trie.entry]
      · simp [hk, Ne.symm hk, toNode, deleteInternal, Trie.entry]
  | ext p c ih =>
      simp only [toNode, deleteInternal, prefixNibs_toEncodedPath]
      obtain ⟨s, c', rfl, hc', rfl⟩ | ⟨hk, rfl⟩ := Trie.delete_ext_cases h
      · simp only [Trie.dropPrefix?_append, ih ht.2.2 hc', Trie.entry_ext_append]
        cases hentry : c.entry s with
        | some x => exact mergeExtension_toNode ht.1 c'
        | none =>
            rw [Trie.delete_absent ht.2.2 hentry hc', Trie.graft_node ht.1 ht.2.1]
            rfl
      · simp only [Trie.dropPrefix?_eq_none hk, Trie.entry_ext_none hk]
        rfl
  | branch f ih =>
      obtain ⟨x, y, hxy, hx, hy⟩ := ht.2
      obtain ⟨i, k, c, rfl, hc, rfl⟩ := Trie.delete_branch_cases h
      rw [toNode_branch, Trie.entry_branch_cons]
      by_cases hi : f i = .null
      · rw [hi] at hc
        cases hc
        simp only [deleteInternal, hi, toChild_null, deleteChild,
          Trie.entry_null]
        rw [← hi, Function.update_eq_self, Trie.join_branch hxy hx hy, toNode_branch,
          ← toChild_null, ← hi, Function.update_eq_self]
        rfl
      · simp only [deleteInternal, toChild_of_ne hi, deleteChild,
          ih i (ht.1 i) hc]
        cases hentry : (f i).entry k with
        | none =>
            rw [Trie.delete_absent (ht.1 i) hentry hc, Function.update_eq_self,
              Trie.join_branch hxy hx hy, toNode_branch, ← toChild_of_ne hi]
            simp
        | some z =>
            -- One of the two children the branch had is still there.
            have hother : ∃ a, Function.update f i c a ≠ .null := by
              by_cases hxi : x = i
              · exact ⟨y, by rwa [Function.update_of_ne (hxi ▸ Ne.symm hxy)]⟩
              · exact ⟨x, by rwa [Function.update_of_ne hxi]⟩
            obtain ⟨a, ha⟩ := hother
            simp only [Option.isSome_some]
            rw [← collapse_toNode ha, ← update_toChild, isEmpty_toNode]
            rfl

/-- Where a deletion of the trie stops, that of the source returns an error and
leaves the node as it was. -/
theorem deleteInternal_stops (h : t.delete k = none) :
    ∃ e, (toNode t).deleteInternal k = (.error (.error e), toNode t) := by
  induction t generalizing k with
  | null => cases h
  | leaf p w => cases h
  | stub d => exact ⟨_, rfl⟩
  | ext p c ih =>
      simp only [toNode, deleteInternal, prefixNibs_toEncodedPath]
      by_cases hk : p <+: k
      · obtain ⟨s, rfl⟩ := hk
        simp only [Trie.delete, Trie.dropPrefix?_append, Option.map_eq_none_iff] at h
        obtain ⟨e, he⟩ := ih h
        exact ⟨e, by simp only [Trie.dropPrefix?_append, he]⟩
      · simp [Trie.delete, Trie.dropPrefix?_eq_none hk] at h
  | branch f ih =>
      rw [toNode_branch]
      cases k with
      | nil => exact ⟨_, rfl⟩
      | cons i k =>
          simp only [Trie.delete, Option.map_eq_none_iff] at h
          have hi : f i ≠ .null := by
            intro hi
            rw [hi] at h
            cases h
          obtain ⟨e, he⟩ := ih i h
          refine ⟨e, ?_⟩
          simp only [deleteInternal, toChild_of_ne hi, deleteChild, he]
          rw [← toChild_of_ne hi, Function.update_eq_self]

end FluentStf.Mpt
