import FluentStf.Mpt.Resolve

/-! Proofs of honest tries. Their nodes are found again by digests, and resolving
the root node of a trie gives a view of it in which everything that is still
hidden is missing from the store. -/
namespace FluentStf.Mpt

open Radix MptNode

theorem self_mem_pathNodes (node : MptNode) (k : List Nibble) : node ∈ node.pathNodes k := by
  cases node <;> simp [pathNodes]

variable {q : List Nibble}

theorem nodeAt_null {u : NibbleTrie} (h : Trie.NodeAt .null q u) : u = .null := by
  cases h
  rfl

/-- The nodes at positions on the path of a key are in its proof. -/
theorem mem_pathNodes_of_nodeAt {t u : NibbleTrie} {k : List Nibble} (h : Trie.NodeAt t q u)
    (hu : u ≠ .null) (hq : q <+: k) : toNode u ∈ (toNode t).pathNodes k := by
  induction h generalizing k with
  | here t => exact self_mem_pathNodes _ k
  | @ext p q c u h ih =>
      obtain ⟨r, rfl⟩ := hq
      simp only [toNode, pathNodes, prefixNibs_toEncodedPath, List.append_assoc,
        Trie.dropPrefix?_append, List.mem_cons]
      exact .inr (ih hu (List.prefix_append q r))
  | @branch f a q u h ih =>
      obtain ⟨r, rfl⟩ := hq
      have hne : f a ≠ .null := by
        intro hnull
        rw [hnull] at h
        exact hu (nodeAt_null h)
      simp only [toNode_branch, pathNodes, List.cons_append, List.mem_cons,
        toChild_of_ne hne, pathNodesChild]
      exact .inr (ih hu (List.prefix_append q r))

theorem nodeAt_of_mem_pathNodes {t : NibbleTrie} {k : List Nibble} {node : MptNode}
    (h : node ∈ (toNode t).pathNodes k) : ∃ q u, Trie.NodeAt t q u ∧ node = toNode u := by
  induction t generalizing k with
  | null => exact ⟨[], .null, .here _, by simpa [toNode, pathNodes] using h⟩
  | stub d => exact ⟨[], .stub d, .here _, by simpa [toNode, pathNodes] using h⟩
  | leaf p v => exact ⟨[], .leaf p v, .here _, by simpa [toNode, pathNodes] using h⟩
  | ext p c ih =>
      simp only [toNode, pathNodes, prefixNibs_toEncodedPath, List.mem_cons] at h
      rcases h with h | h
      · exact ⟨[], .ext p c, .here _, h⟩
      · cases hk : k.dropPrefix? p with
        | none => simp [hk] at h
        | some tail =>
            simp only [hk] at h
            obtain ⟨q, u, hu, rfl⟩ := ih h
            exact ⟨p ++ q, u, .ext hu, rfl⟩
  | branch f ih =>
      simp only [toNode_branch, pathNodes, List.mem_cons] at h
      rcases h with h | h
      · exact ⟨[], .branch f, .here _, h⟩
      · cases k with
        | nil => simp at h
        | cons i tail =>
            by_cases hi : f i = .null
            · simp [hi, pathNodesChild] at h
            · simp only [toChild_of_ne hi, pathNodesChild] at h
              obtain ⟨q, u, hu, rfl⟩ := ih i h
              exact ⟨i :: q, u, .branch hu, rfl⟩

theorem Open.nodeAt {t u : NibbleTrie} (ht : Open t) (h : Trie.NodeAt t q u) :
    Open u := by
  induction h with
  | here => exact ht
  | ext h ih => exact ih ht.ext_child
  | branch h ih => exact ih (ht.branch_child _)

theorem Open.ext {c : NibbleTrie} (hc : Open c) (p : List Nibble) : Open (.ext p c) := by
  intro q d hq
  obtain ⟨r, rfl, hr⟩ := Trie.entry_ext_eq_some.mp hq
  exact hc r d hr

theorem Fits.nodeAt {t u : NibbleTrie} (ht : Fits t) (h : Trie.NodeAt t q u) :
    Fits u := by
  induction h with
  | here => exact ht
  | ext h ih => exact ih ht.2
  | branch h ih => exact ih (ht _)

section

variable {keccak : Bytes → B256} {u : NibbleTrie}

theorem encodings_nodeAt {t : NibbleTrie} {q : List Nibble} (h : Trie.NodeAt t q u)
    (hu : u ≠ .null) : (toNode u).encodings keccak ⊆ (toNode t).encodings keccak := by
  induction h with
  | here => exact List.Subset.refl _
  | ext h ih => exact List.Subset.trans (ih hu) (encodings_toNode_ext _ _)
  | @branch f a q u h ih =>
      have hne : f a ≠ .null := by
        intro hnull
        rw [hnull] at h
        exact hu (nodeAt_null h)
      exact List.Subset.trans (ih hu) (encodings_toNode_branch hne)

/-- The path of a node in a proof can be read. -/
theorem nibs_shallow (u : NibbleTrie) :
    ∃ nibs, ((toNode u).shallow keccak).nibs = .ok nibs := by
  cases u with
  | null => exact ⟨_, rfl⟩
  | stub d => exact ⟨_, rfl⟩
  | branch f => exact ⟨_, rfl⟩
  | leaf p v => exact ⟨p, prefixNibs_toEncodedPath p true⟩
  | ext p c => exact ⟨p, prefixNibs_toEncodedPath p false⟩

/-- Short forms are made of leaves and extensions. -/
theorem mem_shortened {node : MptNode} :
    node ∈ shortened ((toNode u).shallow keccak) ↔
      (∃ p v i, u = .leaf p v ∧ i ≤ p.length ∧
        node = (toNode (.leaf (p.drop i) v)).shallow keccak) ∨
      ∃ p c i, u = .ext p c ∧ i ≤ p.length ∧
        node = (toNode (.ext (p.drop i) c)).shallow keccak := by
  cases u with
  | null => simp [shortened, shortenNodePath, toNode, shallow, nibs]
  | stub d => simp [shortened, shortenNodePath, toNode, shallow, nibs]
  | branch f => simp [shortened, shortenNodePath, toNode, shallow, nibs]
  | leaf p v =>
      simp [shortened, shortenNodePath, toNode, shallow, nibs, eq_comm]
  | ext p c =>
      simp [shortened, shortenNodePath, toNode, shallow, nibs, eq_comm]

/-- The end of a path is a short form of the whole. -/
theorem shallow_mem_shortened (s : List Nibble) (hu : u ≠ .null) (hpath : ¬u.IsNode) :
    (toNode u).shallow keccak ∈ shortened ((toNode (Trie.graft s u)).shallow keccak) := by
  rw [mem_shortened]
  cases u with
  | null => exact (hu rfl).elim
  | leaf p v => exact .inl ⟨s ++ p, v, s.length, by simp, by simp, by simp⟩
  | ext p c => exact .inr ⟨s ++ p, c, s.length, by simp, by simp, by simp⟩
  | branch f => exact (hpath trivial).elim
  | stub d => exact (hpath trivial).elim

/-- Under digests, the store has nodes of tries without hidden parts. -/
def Known (keccak : Bytes → B256) (encodings : List Bytes) (store : NodeStore) : Prop :=
  ∀ d node, store (.Digest d) = some node → ∃ x : NibbleTrie, Open x ∧
    (toNode x).encodings keccak ⊆ encodings ∧ node = (toNode x).shallow keccak ∧ Hides keccak d x

/-- The trie is what remains after all digests in the store were replaced. -/
def Resolved (keccak : Bytes → B256) (store : NodeStore) (node : MptNode) (u : NibbleTrie) : Prop :=
  ∃ w : NibbleTrie, (∃ bound, ∀ fuel, bound ≤ fuel →
      resolveNodes store fuel node = some (toNode w)) ∧
    Trie.View (Hides keccak) w u ∧ ∀ q d, w.entry q = some (.inr d) → store (.Digest d) = none

variable {encodings : List Bytes} {store : NodeStore}

/-- Where the hash function does not collide, a digest finds the node it stands for. -/
theorem Known.node (h : Known keccak encodings store)
    (hinj : Set.InjOn keccak {encoded | encoded ∈ hashed encodings}) (hopen : Open u)
    (hfits : Fits u) (hsub : (toNode u).encodings keccak ⊆ encodings) {d : B256}
    (hd : Hides keccak d u) {node : MptNode} (hnode : store (.Digest d) = some node) :
    node = (toNode u).shallow keccak := by
  obtain ⟨x, hx, hxsub, rfl, hxd⟩ := h d node hnode
  have hboth : (toNode x).encodings keccak ++ (toNode u).encodings keccak ⊆ encodings :=
    List.append_subset.mpr ⟨hxsub, hsub⟩
  have hview := view_of_reference hopen hfits (injOn_hashed_mono hinj hboth) (hxd.trans hd.symm)
  rw [view_eq hx hview]

/-- A child in a proof resolves when the node it stands for does. -/
theorem Resolved.child (hknown : Known keccak encodings store)
    (hinj : Set.InjOn keccak {encoded | encoded ∈ hashed encodings}) (hopen : Open u)
    (hfits : Fits u) (hsub : (toNode u).encodings keccak ⊆ encodings)
    (h : Resolved keccak store ((toNode u).shallow keccak) u) :
    Resolved keccak store ((toNode u).orDigest keccak ((toNode u).shallow keccak)) u := by
  rw [orDigest]
  cases href : (toNode u).reference keccak with
  | Bytes b => exact h
  | Digest d =>
      cases hnode : store (.Digest d) with
      | none =>
          refine ⟨.stub d, ⟨1, fun fuel hfuel => ?_⟩, .stub href, ?_⟩
          · obtain ⟨n, rfl⟩ := Nat.exists_eq_add_of_le' hfuel
            simp only [resolveNodes, hnode]
            rfl
          · intro q d' hq
            cases (Trie.entry_stub_eq_some.mp hq).2
            exact hnode
      | some node =>
          obtain ⟨w, ⟨bound, hrun⟩, hview, hstubs⟩ := h
          refine ⟨w, ⟨bound + 1, fun fuel hfuel => ?_⟩, hview, hstubs⟩
          obtain ⟨n, rfl⟩ := Nat.exists_eq_add_of_le' hfuel
          rw [← Nat.add_assoc, resolveNodes, hnode]
          rw [hknown.node hinj hopen hfits hsub href hnode]
          exact hrun _ (by omega)

theorem resolved_null : Resolved keccak store .Null .null := by
  refine ⟨.null, ⟨1, fun fuel hfuel => ?_⟩, .null, fun q d hq => nomatch hq⟩
  obtain ⟨n, rfl⟩ := Nat.exists_eq_add_of_le' hfuel
  rfl

theorem resolvedChildren_map_some (children : Nibble → Option MptNode) :
    resolvedChildren (fun i => (children i).map some) = some children :=
  resolvedChildren_eq_some.mpr fun _ => rfl

/-- Resolving the root node of a trie gives a view of the trie, and everything
that is still hidden there is not in the store. -/
theorem resolved_shallow (hknown : Known keccak encodings store)
    (hinj : Set.InjOn keccak {encoded | encoded ∈ hashed encodings}) (u : NibbleTrie)
    (hopen : Open u) (hfits : Fits u) (hsub : (toNode u).encodings keccak ⊆ encodings) :
    Resolved keccak store ((toNode u).shallow keccak) u := by
  induction u with
  | null => exact resolved_null
  | stub d => exact (hopen.ne_stub d rfl).elim
  | leaf p v =>
      refine ⟨.leaf p v, ⟨1, fun fuel hfuel => ?_⟩, .leaf p v, fun q d hq => ?_⟩
      · obtain ⟨n, rfl⟩ := Nat.exists_eq_add_of_le' hfuel
        rfl
      · cases (Trie.entry_leaf_eq_some.mp hq).2
  | ext p c ih =>
      have hsub' : (toNode c).encodings keccak ⊆ encodings :=
        List.Subset.trans (encodings_toNode_ext p c) hsub
      obtain ⟨w, ⟨bound, hrun⟩, hview, hstubs⟩ := Resolved.child hknown hinj hopen.ext_child
        hfits.2 hsub' (ih hopen.ext_child hfits.2 hsub')
      refine ⟨.ext p w, ⟨bound + 1, fun fuel hfuel => ?_⟩, .ext hview, fun q d hq => ?_⟩
      · obtain ⟨n, rfl⟩ := Nat.exists_eq_add_of_le' hfuel
        rw [toNode, shallow, ← Nat.add_assoc, resolveNodes, hrun _ (by omega)]
        rfl
      · obtain ⟨r, rfl, hr⟩ := Trie.entry_ext_eq_some.mp hq
        exact hstubs r d hr
  | branch f ih =>
      have child : ∀ i, Resolved keccak store
          ((toNode (f i)).orDigest keccak ((toNode (f i)).shallow keccak)) (f i) := by
        intro i
        by_cases hi : f i = .null
        · rw [hi]
          exact resolved_null
        · have hsub' : (toNode (f i)).encodings keccak ⊆ encodings :=
            List.Subset.trans (encodings_toNode_branch hi) hsub
          exact Resolved.child hknown hinj (hopen.branch_child i) (hfits i) hsub'
            (ih i (hopen.branch_child i) (hfits i) hsub')
      choose w hrun hview hstubs using child
      choose bound hrun using hrun
      refine ⟨.branch w, ⟨Finset.univ.sup bound + 1, fun fuel hfuel => ?_⟩, .branch hview, ?_⟩
      · obtain ⟨n, rfl⟩ := Nat.exists_eq_add_of_le' hfuel
        have results : ∀ i, (shallowChild keccak (toChild (f i))).map
            (resolveNodes store (n + Finset.univ.sup bound)) = (toChild (w i)).map some := by
          intro i
          have hnull := Trie.view_null_iff (not_hides_null keccak) (hview i)
          by_cases hi : f i = .null
          · rw [hi, hnull.mpr hi]
            rfl
          · rw [toChild_of_ne hi, toChild_of_ne (mt hnull.mp hi), shallowChild,
              Option.map_some, Option.map_some, hrun i]
            have := Finset.le_sup (f := bound) (Finset.mem_univ i)
            omega
        rw [toNode_branch, shallow, ← Nat.add_assoc, resolveNodes]
        simp only [results, resolvedChildren_map_some]
        rfl
      · intro q d hq
        cases q with
        | nil => cases hq
        | cons i q => exact hstubs i q d hq

end

end FluentStf.Mpt
