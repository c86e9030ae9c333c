import FluentStf.Mpt.Keyed

/-! Insertions and deletions on a trie of which only a part is present. -/
namespace FluentStf.Mpt

open Radix

/-- Leaves and extensions, whose paths grow when they move up. -/
def MptNode.hasPath : MptNode → Bool
  | .Leaf _ _ => true
  | .Extension _ _ => true
  | _ => false

/-- Some subtries that are referred to by digests are replaced by these digests. -/
inductive PartialView (keccak : Bytes → B256) : MptNode → MptNode → Prop where
  | hidden {node : MptNode} {digest : B256} (h : node.reference keccak = .Digest digest) :
      PartialView keccak (.Digest digest) node
  | null : PartialView keccak .Null .Null
  | leaf (path value : Bytes) : PartialView keccak (.Leaf path value) (.Leaf path value)
  | extension {path : Bytes} {a b : MptNode} (h : PartialView keccak a b) :
      PartialView keccak (.Extension path a) (.Extension path b)
  | branch {f g : Nibble → Option MptNode} (habsent : ∀ i, f i = none ↔ g i = none)
      (hpresent : ∀ i a b, f i = some a → g i = some b → PartialView keccak a b) :
      PartialView keccak (.Branch f) (.Branch g)

/-- The deletion of a key removes a leaf whose branch is then left with a digest
only, and behind this digest the full trie has a leaf or an extension. -/
inductive CollapsesOntoHidden : MptNode → MptNode → List Nibble → Prop where
  | here {f g : Nibble → Option MptNode} {i j : Nibble} {path value : Bytes} {tail : List Nibble}
      {digest : B256} {node : MptNode} (hleaf : f i = some (.Leaf path value))
      (htail : prefixNibs path = .ok tail) (hdigest : f j = some (.Digest digest))
      (hother : ∀ l, f l ≠ none → l = i ∨ l = j) (hnode : g j = some node)
      (hpath : node.hasPath = true) : CollapsesOntoHidden (.Branch f) (.Branch g) (i :: tail)
  | branch {f g : Nibble → Option MptNode} {i : Nibble} {a b : MptNode} {tail : List Nibble}
      (ha : f i = some a) (hb : g i = some b) (h : CollapsesOntoHidden a b tail) :
      CollapsesOntoHidden (.Branch f) (.Branch g) (i :: tail)
  | extension {path : Bytes} {nibs tail key : List Nibble} {a b : MptNode}
      (hnibs : prefixNibs path = .ok nibs) (hkey : key = nibs ++ tail)
      (h : CollapsesOntoHidden a b tail) :
      CollapsesOntoHidden (.Extension path a) (.Extension path b) key

section

variable {keccak : Bytes → B256}

/-- A partial view of a trie is given by a trie with stubs. -/
theorem partialView_toNode {W : MptNode} {t : NibbleTrie} (h : PartialView keccak W (toNode t)) :
    ∃ w, W = toNode w ∧ Trie.View (Hides keccak) w t := by
  have hidden_case : ∀ {digest : B256} {t : NibbleTrie},
      (toNode t).reference keccak = .Digest digest →
      ∃ w, MptNode.Digest digest = toNode w ∧ Trie.View (Hides keccak) w t :=
    fun h => ⟨.stub _, rfl, .stub h⟩
  induction t generalizing W with
  | null =>
      cases h with
      | hidden h => exact hidden_case h
      | null => exact ⟨.null, rfl, .null⟩
  | stub d =>
      cases h with
      | hidden h => exact hidden_case h
  | leaf p v =>
      cases h with
      | hidden h => exact hidden_case h
      | leaf => exact ⟨.leaf p v, rfl, .leaf p v⟩
  | ext p c ih =>
      cases h with
      | hidden h => exact hidden_case h
      | extension h =>
          obtain ⟨w, rfl, hview⟩ := ih h
          exact ⟨.ext p w, rfl, .ext hview⟩
  | branch f ih =>
      rw [toNode_branch] at h
      cases h with
      | hidden h => exact hidden_case (t := .branch f) h
      | @branch children _ habsent hpresent =>
          have habsent : ∀ i, children i = none ↔ toChild (f i) = none := habsent
          have child : ∀ i, ∃ w, children i = toChild w ∧ Trie.View (Hides keccak) w (f i) := by
            intro i
            by_cases hi : f i = .null
            · refine ⟨.null, (habsent i).mpr (by rw [hi]; rfl), ?_⟩
              rw [hi]
              exact .null
            · have hsome : children i ≠ none := by
                rw [Ne, habsent i, toChild_of_ne hi]
                simp
              obtain ⟨a, ha⟩ := Option.ne_none_iff_exists'.mp hsome
              obtain ⟨w, rfl, hview⟩ := ih i (hpresent i a _ ha (toChild_of_ne hi))
              refine ⟨w, ?_, hview⟩
              have hw := mt (Trie.view_null_iff (not_hides_null keccak) hview).mp hi
              rw [ha, toChild_of_ne hw]
          choose w hw using child
          refine ⟨.branch w, ?_, .branch fun i => (hw i).2⟩
          rw [toNode_branch]
          exact congrArg _ (funext fun i => (hw i).1)

theorem hash_eq_of_reference {m n : MptNode} (h : m.reference keccak = n.reference keccak) :
    m.hash keccak = n.hash keccak := by
  by_cases hm : m = .Null
  · rw [hm] at h
    rw [hm, eq_null_of_reference h.symm]
  by_cases hn : n = .Null
  · rw [hn] at h
    exact (hm (eq_null_of_reference h)).elim
  · cases m with
    | Null => exact (hm rfl).elim
    | _ =>
        cases n with
        | Null => exact (hn rfl).elim
        | _ => simp only [MptNode.hash, h]

theorem toNode_of_toChild {s : NibbleTrie} {a : MptNode} (h : toChild s = some a) :
    toNode s = a := by
  by_cases hs : s = .null
  · rw [hs] at h
    cases h
  · rw [toChild_of_ne hs] at h
    exact Option.some.inj h

theorem toChild_ne_none {s : NibbleTrie} : toChild s ≠ none ↔ s ≠ .null := by
  by_cases hs : s = .null
  · simp [hs]
  · simp [hs, toChild_of_ne hs]

theorem hasPath_toNode {s : NibbleTrie} (hs : s ≠ .null) :
    (toNode s).hasPath = true ↔ ¬s.IsNode := by
  cases s with
  | null => exact (hs rfl).elim
  | _ => simp [toNode, MptNode.hasPath, Trie.IsNode]

/-- The two descriptions of a collapse onto a hidden node agree. -/
theorem collapses_toNode {w t : NibbleTrie} (hview : Trie.View (Hides keccak) w t)
    (k : List Nibble) : CollapsesOntoHidden (toNode w) (toNode t) k ↔ Trie.Collapses w t k := by
  induction hview generalizing k with
  | stub hd => exact iff_of_false (fun h => nomatch h) (fun h => nomatch h)
  | null => exact iff_of_false (fun h => nomatch h) (fun h => nomatch h)
  | leaf p v => exact iff_of_false (fun h => nomatch h) (fun h => nomatch h)
  | @ext p w t hview ih =>
      constructor
      · intro h
        cases h with
        | extension hnibs hkey h =>
            rw [prefixNibs_toEncodedPath] at hnibs
            cases hnibs
            exact .ext hkey ((ih _).mp h)
      · intro h
        cases h with
        | ext hq h => exact .extension (prefixNibs_toEncodedPath p false) hq ((ih _).mpr h)
  | @branch f g hview ih =>
      rw [toNode_branch, toNode_branch]
      constructor
      · intro h
        cases h with
        | @here _ _ i j _ _ _ _ _ hleaf htail hdigest hother hnode hpath =>
            have hi := toNode_of_toChild hleaf
            have hj := toNode_of_toChild hdigest
            have hg := toNode_of_toChild hnode
            have hgj : g j ≠ .null := toChild_ne_none.mp (Option.ne_none_iff_exists'.mpr ⟨_, hnode⟩)
            have hhidden : ¬(g j).IsNode := (hasPath_toNode hgj).mp (by rwa [hg])
            cases hfi : f i <;> rw [hfi] at hi <;> cases hi
            cases hfj : f j <;> rw [hfj] at hj <;> cases hj
            rw [prefixNibs_toEncodedPath] at htail
            cases htail
            exact .here hfi hfj (fun l hl => hother l (toChild_ne_none.mpr hl)) hhidden
        | branch ha hb h =>
            rw [← toNode_of_toChild ha, ← toNode_of_toChild hb] at h
            exact .branch ((ih _ _).mp h)
      · intro h
        cases h with
        | @here _ _ a b k v d hleaf hstub hother hhidden =>
            have hgb : g b ≠ .null := by
              intro hnull
              have hb := hview b
              rw [hstub, hnull] at hb
              cases hb with
              | stub hd => exact not_hides_null keccak _ hd
            have hfa : toChild (f a) = some (.Leaf (toEncodedPath k true) v) := by
              rw [hleaf]
              rfl
            have hfb : toChild (f b) = some (.Digest d) := by
              rw [hstub]
              rfl
            exact .here hfa (prefixNibs_toEncodedPath k true) hfb
              (fun l hl => hother l (toChild_ne_none.mp hl)) (toChild_of_ne hgb)
              ((hasPath_toNode hgb).mpr hhidden)
        | @branch _ _ a _ h =>
            have hfa : f a ≠ .null := by
              intro hnull
              rw [hnull] at h
              cases h
            have hga := mt (Trie.view_null_iff (not_hides_null keccak) (hview a)).mpr hfa
            exact .branch (toChild_of_ne hfa) (toChild_of_ne hga) ((ih a _).mpr h)

/-- An insertion that succeeds on a partial view does the same on the full trie. -/
theorem insert_partialView {w t : NibbleTrie} (ht : t.Canonical)
    (hview : Trie.View (Hides keccak) w t) {k : List Nibble} {value : Bytes} {b : Bool}
    {W' : MptNode} (h : (toNode w).insertInternal k value = (.ok b, W')) :
    ∃ w' t', W' = toNode w' ∧ (toNode t).insertInternal k value = (.ok b, toNode t') ∧
      t.insert value k = some t' ∧ Trie.View (Hides keccak) w' t' := by
  cases hw : w.insert value k with
  | none =>
      obtain ⟨e, he⟩ := insertInternal_stops hw
      rw [he] at h
      cases h
  | some w' =>
      obtain ⟨t', ht', hview'⟩ := Trie.insert_view ht hview hw
      obtain ⟨x, hx⟩ := Trie.lookup_of_insert hw
      have hentry : w.entry k = t.entry k := by
        rw [Trie.entry_of_lookup hx, Trie.entry_of_lookup (Trie.lookup_view hview hx)]
      rw [insertInternal_toNode (Trie.view_canonical (not_hides_null keccak) hview ht) hw] at h
      rw [insertInternal_toNode ht ht', ← hentry]
      cases h
      exact ⟨w', t', rfl, rfl, ht', hview'⟩

/-- A deletion that succeeds on a partial view succeeds on the full trie with the
same answer. It leaves a partial view behind unless it collapses onto a hidden
leaf or extension. -/
theorem delete_partialView {w t : NibbleTrie} (ht : t.Canonical)
    (hview : Trie.View (Hides keccak) w t) {k : List Nibble} {b : Bool} {W' : MptNode}
    (h : (toNode w).deleteInternal k = (.ok b, W')) :
    ∃ w' t', W' = toNode w' ∧ (toNode t).deleteInternal k = (.ok b, toNode t') ∧
      w.delete k = some w' ∧ t.delete k = some t' ∧
      (Trie.View (Hides keccak) w' t' ↔ ¬CollapsesOntoHidden (toNode w) (toNode t) k) := by
  cases hw : w.delete k with
  | none =>
      obtain ⟨e, he⟩ := deleteInternal_stops hw
      rw [he] at h
      cases h
  | some w' =>
      obtain ⟨t', ht', _, hiff⟩ := Trie.delete_view (not_hides_null keccak) ht hview hw
      obtain ⟨x, hx⟩ := Trie.lookup_of_delete hw
      have hentry : w.entry k = t.entry k := by
        rw [Trie.entry_of_lookup hx, Trie.entry_of_lookup (Trie.lookup_view hview hx)]
      rw [deleteInternal_toNode (Trie.view_canonical (not_hides_null keccak) hview ht) hw] at h
      rw [deleteInternal_toNode ht ht', ← hentry]
      cases h
      exact ⟨w', t', rfl, rfl, rfl, ht', hiff.trans (not_congr (collapses_toNode hview _).symm)⟩

end

end FluentStf.Mpt
