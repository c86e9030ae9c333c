import FluentStf.Radix.Update

/-! Partial views of a trie, in which some subtries are replaced by stubs. Which
stub may stand for which subtrie is a parameter. Insertions on a view are
insertions on the whole trie. A deletion on a view is one on the whole trie
unless it collapses a branch onto a stub that hides a leaf or an extension. -/
namespace Radix

variable {α V D : Type*}

namespace Trie

section Shape

variable (hides : D → Trie α V D → Prop)

/-- The first trie shows a part of the second one. -/
inductive View : Trie α V D → Trie α V D → Prop where
  | stub {d : D} {t : Trie α V D} (h : hides d t) : View (stub d) t
  | null : View null null
  | leaf (p : List α) (v : V) : View (leaf p v) (leaf p v)
  | ext {p : List α} {w t : Trie α V D} (h : View w t) : View (ext p w) (ext p t)
  | branch {f g : α → Trie α V D} (h : ∀ a, View (f a) (g a)) : View (branch f) (branch g)

variable {hides}

theorem view_null_iff (hnull : ∀ d, ¬hides d null) {w t : Trie α V D} (h : View hides w t) :
    w = null ↔ t = null := by
  cases h with
  | stub hd =>
      constructor
      · intro he
        cases he
      · rintro rfl
        exact (hnull _ hd).elim
  | _ => simp

theorem view_isNode {w t : Trie α V D} (h : View hides w t) (ht : t.IsNode) : w.IsNode := by
  cases h with
  | stub _ => exact isNode_stub _
  | branch _ => exact isNode_branch _
  | _ => exact False.elim ht

theorem view_canonical (hnull : ∀ d, ¬hides d null) {w t : Trie α V D} (h : View hides w t)
    (ht : t.Canonical) : w.Canonical := by
  induction h with
  | stub _ => trivial
  | null => trivial
  | leaf p v => trivial
  | ext hview ih => exact ⟨ht.1, view_isNode hview ht.2.1, ih ht.2.2⟩
  | branch hview ih =>
      obtain ⟨a, b, hab, ha, hb⟩ := ht.2
      exact ⟨fun x => ih x (ht.1 x), a, b, hab, mt (view_null_iff hnull (hview a)).mp ha,
        mt (view_null_iff hnull (hview b)).mp hb⟩

theorem view_graft {w t : Trie α V D} (h : View hides w t)
    (hsolid : ∀ d, w = stub d → t.IsNode) (p : List α) :
    View hides (graft p w) (graft p t) := by
  cases p with
  | nil => simpa using h
  | cons a p =>
      cases h with
      | stub hd =>
          rw [graft_node (List.cons_ne_nil a p) (isNode_stub _),
            graft_node (List.cons_ne_nil a p) (hsolid _ rfl)]
          exact .ext (.stub hd)
      | null => simpa using View.null
      | leaf q v => simpa using View.leaf _ v
      | ext hview => simpa using View.ext hview
      | branch hview =>
          rw [graft_node (List.cons_ne_nil a p) (isNode_branch _),
            graft_node (List.cons_ne_nil a p) (isNode_branch _)]
          exact .ext (.branch hview)

/-- A branch has a child next to any given one. -/
theorem Canonical.exists_other {f : α → Trie α V D} (h : (Trie.branch f).Canonical) (a : α) :
    ∃ b, b ≠ a ∧ f b ≠ null := by
  obtain ⟨x, y, hxy, hx, hy⟩ := h.2
  by_cases hxa : x = a
  · exact ⟨y, fun hya => hxy (hxa.trans hya.symm), hy⟩
  · exact ⟨x, hxa, hx⟩

theorem join_ne_null [Nonempty α] {f : α → Trie α V D} {a : α} (h : f a ≠ null) :
    join f ≠ null := by
  rcases join_cases f with ⟨b, hb, he⟩ | ⟨_, he⟩
  · rw [he, Ne, graft_eq_null, ← hb a h]
    exact h
  · rw [he]
    simp

/-- The deletion removes a leaf whose branch is then left with a single stub,
behind which the whole trie has a leaf or an extension. -/
inductive Collapses : Trie α V D → Trie α V D → List α → Prop where
  | here {f g : α → Trie α V D} {a b : α} {k : List α} {v : V} {d : D} (hleaf : f a = leaf k v)
      (hstub : f b = stub d) (hother : ∀ x, f x ≠ null → x = a ∨ x = b)
      (hhidden : ¬(g b).IsNode) : Collapses (branch f) (branch g) (a :: k)
  | branch {f g : α → Trie α V D} {a : α} {k : List α} (h : Collapses (f a) (g a) k) :
      Collapses (branch f) (branch g) (a :: k)
  | ext {p k q : List α} {w t : Trie α V D} (hq : q = p ++ k) (h : Collapses w t k) :
      Collapses (ext p w) (ext p t) q

/-- The child is a leaf that ends the key, and there is one other child. -/
def Lone (f : α → Trie α V D) (a : α) (k : List α) (b : α) : Prop :=
  b ≠ a ∧ (∃ v, f a = leaf k v) ∧ ∀ x, f x ≠ null → x = a ∨ x = b

theorem collapses_ext_iff {p k : List α} {w t : Trie α V D} :
    Collapses (ext p w) (ext p t) (p ++ k) ↔ Collapses w t k := by
  constructor
  · intro h
    cases h with
    | ext hq h => rwa [List.append_cancel_left hq]
  · exact .ext rfl

theorem collapses_lone_iff {f g : α → Trie α V D} {a b : α} {k : List α} (h : Lone f a k b) :
    Collapses (branch f) (branch g) (a :: k) ↔ ∃ d, f b = stub d ∧ ¬(g b).IsNode := by
  obtain ⟨hba, ⟨v, hleaf⟩, hother⟩ := h
  constructor
  · intro hc
    cases hc with
    | @here _ _ _ b' _ _ d _ hstub _ hhidden =>
        have hb' : b' = b := by
          rcases hother b' (by simp [hstub]) with rfl | h
          · rw [hleaf] at hstub
            cases hstub
          · exact h
        subst hb'
        exact ⟨d, hstub, hhidden⟩
    | branch hc =>
        rw [hleaf] at hc
        cases hc
  · rintro ⟨d, hstub, hhidden⟩
    exact .here hleaf hstub hother hhidden

theorem collapses_branch_iff {f g : α → Trie α V D} {a : α} {k : List α} (h : ∀ b, ¬Lone f a k b) :
    Collapses (branch f) (branch g) (a :: k) ↔ Collapses (f a) (g a) k := by
  constructor
  · intro hc
    cases hc with
    | @here _ _ _ b _ v d hleaf hstub hother _ =>
        have hba : b ≠ a := by
          rintro rfl
          rw [hleaf] at hstub
          cases hstub
        exact (h b ⟨hba, ⟨v, hleaf⟩, hother⟩).elim
    | branch hc => exact hc
  · exact .branch

end Shape

section Contents

variable [DecidableEq α] {hides : D → Trie α V D → Prop} {k : List α} {t : Trie α V D}

/-- Below one letter of a trie that is shown there is a view of what is below
that letter in the whole. -/
theorem view_derive {w : Trie α V D} (ht : t.Canonical) (h : View hides w t)
    (hstub : ∀ d, w ≠ stub d) (a : α) : View hides (w.derive a) (t.derive a) := by
  cases h with
  | stub hd => exact (hstub _ rfl).elim
  | null => exact .null
  | branch hview => exact hview a
  | leaf p v =>
      cases p with
      | nil => exact .null
      | cons b q =>
          rw [derive]
          split_ifs
          · exact .leaf q v
          · exact .null
  | @ext p w t hview =>
      cases p with
      | nil => exact (ht.1 rfl).elim
      | cons b q =>
          rw [derive, derive]
          split_ifs
          · exact view_graft hview (fun _ _ => ht.2.1) q
          · exact .null

/-- A path above both tries can be removed again. -/
theorem view_of_graft {w : Trie α V D} (hw : w.Canonical) (ht : t.Canonical) (p : List α)
    (h : View hides (graft p w) (graft p t)) : View hides w t := by
  induction p with
  | nil => simpa using h
  | cons a p ih =>
      have hstub : ∀ d, graft (a :: p) w ≠ stub d := by
        intro d
        cases w <;> simp [graft]
      have hbelow := view_derive (ht.graft (a :: p)) h hstub a
      rw [derive_graft_cons hw, derive_graft_cons ht, if_pos rfl, if_pos rfl] at hbelow
      exact ih hbelow

/-- What can be read in a view is what the whole holds. -/
theorem lookup_view {w : Trie α V D} (h : View hides w t) {x : Option V} (hx : w.lookup k = .ok x) :
    t.lookup k = .ok x := by
  induction h generalizing k with
  | stub hd => cases hx
  | null => exact hx
  | leaf p v => exact hx
  | @ext p w t hview ih =>
      by_cases hk : p <+: k
      · obtain ⟨s, rfl⟩ := hk
        rw [lookup, dropPrefix?_append] at hx ⊢
        exact ih hx
      · rw [lookup, dropPrefix?_eq_none hk] at hx ⊢
        exact hx
  | branch hview ih =>
      cases k with
      | nil => exact hx
      | cons a k => exact ih a hx

theorem entry_of_lookup {x : Option V} (h : t.lookup k = .ok x) :
    t.entry k = x.map .inl := by
  induction t generalizing k with
  | null =>
      cases h
      rfl
  | stub d => cases h
  | leaf p v =>
      by_cases hk : k = p
      · simp only [lookup, hk, if_true, Except.ok.injEq] at h
        simp [entry, hk, ← h]
      · simp only [lookup, Ne.symm hk, if_false, Except.ok.injEq] at h
        simp [entry, hk, ← h]
  | ext p c ih =>
      by_cases hk : p <+: k
      · obtain ⟨s, rfl⟩ := hk
        rw [lookup, dropPrefix?_append] at h
        rw [entry_ext_append]
        exact ih h
      · rw [lookup, dropPrefix?_eq_none hk] at h
        cases h
        exact entry_ext_none hk c
  | branch f ih =>
      cases k with
      | nil =>
          cases h
          rfl
      | cons a k => exact ih a h

/-- A value is read wherever there is one. -/
theorem lookup_of_entry {v : V} (h : t.entry k = some (.inl v)) :
    t.lookup k = .ok (some v) := by
  induction t generalizing k with
  | null => cases h
  | stub d => cases (entry_stub_eq_some.mp h).2
  | leaf p w =>
      obtain ⟨rfl, he⟩ := entry_leaf_eq_some.mp h
      cases he
      rw [lookup, if_pos rfl]
  | ext p c ih =>
      obtain ⟨r, rfl, hr⟩ := entry_ext_eq_some.mp h
      rw [lookup, dropPrefix?_append]
      exact ih hr
  | branch f ih =>
      cases k with
      | nil => cases h
      | cons a k => exact ih a h

theorem lookup_eq_some_iff {v : V} :
    t.lookup k = .ok (some v) ↔ t.entry k = some (.inl v) :=
  ⟨entry_of_lookup, lookup_of_entry⟩

theorem view_entry_inl {w : Trie α V D} (h : View hides w t) {q : List α} {v : V}
    (hq : w.entry q = some (.inl v)) : t.entry q = some (.inl v) :=
  lookup_eq_some_iff.mp (lookup_view h (lookup_of_entry hq))

/-- Wherever a view has a value or a stub, the whole has an entry there or below. -/
theorem exists_entry_of_view (hnull : ∀ d, ¬hides d null) {w : Trie α V D} (h : View hides w t)
    (ht : t.Canonical) {x : V ⊕ D} (hk : w.entry k = some x) :
    ∃ r y, t.entry (k ++ r) = some y := by
  induction h generalizing k with
  | null => cases hk
  | leaf p v => exact ⟨[], x, by rwa [List.append_nil]⟩
  | @stub d t hd =>
      have hne : t ≠ null := by
        rintro rfl
        exact hnull d hd
      obtain ⟨r, y, hr⟩ := ht.exists_entry hne
      obtain ⟨rfl, -⟩ := entry_stub_eq_some.mp hk
      exact ⟨r, y, hr⟩
  | @ext p w t hview ih =>
      obtain ⟨s, rfl, hs⟩ := entry_ext_eq_some.mp hk
      obtain ⟨r, y, hr⟩ := ih ht.2.2 hs
      exact ⟨r, y, by rwa [List.append_assoc, entry_ext_append]⟩
  | branch hview ih =>
      cases k with
      | nil => cases hk
      | cons a k => exact ih a (ht.1 a) hk

/-- A key that can be written can be read. -/
theorem lookup_of_insert {t' : Trie α V D} {v : V} (h : t.insert v k = some t') :
    ∃ x, t.lookup k = .ok x := by
  induction t generalizing k t' with
  | null => exact ⟨none, rfl⟩
  | stub d => simp [insert] at h
  | leaf p w =>
      rw [lookup]
      split_ifs <;> exact ⟨_, rfl⟩
  | ext p c ih =>
      obtain ⟨s, c', rfl, hc', -⟩ | ⟨x, a, l, b, r, hab, rfl, rfl, -⟩ := insert_ext_cases h
      · rw [lookup, dropPrefix?_append]
        exact ih hc'
      · rw [lookup, dropPrefix?_eq_none (not_prefix_fork hab x l r)]
        exact ⟨none, rfl⟩
  | branch f ih =>
      obtain ⟨a, k, c, rfl, hc, _⟩ := insert_branch_cases h
      exact ih a hc

theorem lookup_of_delete {t' : Trie α V D} (h : t.delete k = some t') :
    ∃ x, t.lookup k = .ok x := by
  induction t generalizing k t' with
  | null => exact ⟨none, rfl⟩
  | stub d => simp [delete] at h
  | leaf p w =>
      rw [lookup]
      split_ifs <;> exact ⟨_, rfl⟩
  | ext p c ih =>
      obtain ⟨s, c', rfl, hc', -⟩ | ⟨hk, -⟩ := delete_ext_cases h
      · rw [lookup, dropPrefix?_append]
        exact ih hc'
      · rw [lookup, dropPrefix?_eq_none hk]
        exact ⟨none, rfl⟩
  | branch f ih =>
      obtain ⟨a, k, c, rfl, hc, _⟩ := delete_branch_cases h
      exact ih a hc

/-- Two views side by side, below a path. -/
theorem view_fork {s s' t' : Trie α V D} {a b : α} (hab : a ≠ b) (hs : View hides s s')
    (ht : View hides t t') (p : List α) :
    View hides (graft p (branch (pair a s b t))) (graft p (branch (pair a s' b t'))) := by
  refine view_graft (.branch fun x => ?_) (fun _ _ => isNode_branch _) p
  by_cases hb : x = b
  · rw [hb, pair_right, pair_right]
    exact ht
  · by_cases ha : x = a
    · rw [ha, pair_left hab, pair_left hab]
      exact hs
    · rw [pair_other ha hb, pair_other ha hb]
      exact .null

theorem view_update {f g : α → Trie α V D} (hview : ∀ x, View hides (f x) (g x)) (a : α)
    {c c' : Trie α V D} (hc : View hides c c') (x : α) :
    View hides (Function.update f a c x) (Function.update g a c' x) := by
  by_cases hx : x = a
  · subst hx
    simpa using hc
  · simpa [hx] using hview x

/-- An insertion that succeeds on a view succeeds on the whole, with a view of
the result. -/
theorem insert_view {w w' : Trie α V D} {v : V} (ht : t.Canonical) (hview : View hides w t)
    (h : w.insert v k = some w') :
    ∃ t', t.insert v k = some t' ∧ View hides w' t' := by
  induction hview generalizing k w' with
  | stub hd => simp [insert] at h
  | null =>
      cases h
      exact ⟨_, rfl, .leaf k v⟩
  | leaf p x =>
      refine ⟨w', h, ?_⟩
      obtain ⟨-, rfl⟩ | ⟨c, a, l, b, r, hab, rfl, -, rfl⟩ := insert_leaf_cases h
      · exact .leaf p v
      · exact view_fork hab (.leaf l x) (.leaf r v) c
  | @ext p w t hview ih =>
      obtain ⟨s, c, rfl, hc, rfl⟩ | ⟨x, a, l, b, r, hab, rfl, rfl, rfl⟩ := insert_ext_cases h
      · obtain ⟨c', hc', hcview⟩ := ih ht.2.2 hc
        refine ⟨graft p c', by simp [insert, hc'], ?_⟩
        exact view_graft hcview (fun _ _ => insert_isNode ht.2.1 hc') p
      · refine ⟨graft x (branch (pair a (graft l t) b (leaf r v))),
          by simp only [insert, split_fork hab], ?_⟩
        exact view_fork hab (view_graft hview (fun _ _ => ht.2.1) l) (.leaf r v) x
  | @branch f g hview ih =>
      obtain ⟨a, k, c, rfl, hc, rfl⟩ := insert_branch_cases h
      obtain ⟨c', hc', hcview⟩ := ih a (ht.1 a) hc
      exact ⟨branch (Function.update g a c'), by simp [insert, hc'],
        .branch (view_update hview a hcview)⟩

/-- Only a leaf can be deleted to leave nothing. -/
theorem delete_eq_null (ht : t.Canonical) (h : t.delete k = some null) :
    t = null ∨ ∃ v, t = leaf k v := by
  induction t generalizing k with
  | null => exact .inl rfl
  | stub d => simp [delete] at h
  | leaf p v =>
      by_cases hk : k = p
      · exact .inr ⟨v, by rw [hk]⟩
      · simp [delete, hk] at h
  | ext p c ih =>
      obtain ⟨s, c', rfl, hc', hgraft⟩ | ⟨-, hext⟩ := delete_ext_cases h
      · obtain rfl := graft_eq_null.mp hgraft
        have hnode := ht.2.1
        rcases ih ht.2.2 hc' with rfl | ⟨v, rfl⟩ <;> exact False.elim hnode
      · cases hext
  | branch f ih =>
      obtain ⟨a, k, c, rfl, _, hjoin⟩ := delete_branch_cases h
      have : Nonempty α := ⟨a⟩
      obtain ⟨b, hba, hb⟩ := ht.exists_other a
      exact (join_ne_null (a := b) (by simpa [hba] using hb) hjoin).elim

/-- What is left of a branch once the given child is gone. -/
theorem join_update_null {f : α → Trie α V D} {a b : α} (hab : b ≠ a)
    (hother : ∀ x, f x ≠ null → x = a ∨ x = b) :
    join (Function.update f a null) = graft [b] (f b) := by
  rw [join_single (a := b)]
  · rw [Function.update_of_ne hab]
  · intro x hx
    by_cases hxa : x = a
    · simp [hxa] at hx
    · rw [Function.update_of_ne hxa] at hx
      exact (hother x hx).resolve_left hxa

/-- A deletion below a branch leaves its last child or the branch. -/
theorem join_delete_cases {f : α → Trie α V D} {a : α} {c : Trie α V D} (ht : (branch f).Canonical)
    (hc : (f a).delete k = some c) :
    (∃ b, Lone f a k b ∧ c = null ∧ join (Function.update f a c) = graft [b] (f b)) ∨
      ((∀ b, ¬Lone f a k b) ∧
        join (Function.update f a c) = branch (Function.update f a c)) := by
  by_cases hlone : ∃ b, Lone f a k b
  · obtain ⟨b, hba, ⟨v, hleaf⟩, hother⟩ := hlone
    have hnull : c = null := by
      rw [hleaf] at hc
      simpa [delete] using hc.symm
    subst hnull
    exact .inl ⟨b, ⟨hba, ⟨v, hleaf⟩, hother⟩, rfl, join_update_null hba hother⟩
  · refine .inr ⟨fun b hb => hlone ⟨b, hb⟩, ?_⟩
    obtain ⟨b, hba, hb⟩ := ht.exists_other a
    -- The branch keeps two children: the other one, and the changed or a third one.
    have two : ∃ x, x ≠ b ∧ Function.update f a c x ≠ null := by
      by_cases hnull : c = null
      · rw [hnull] at hc ⊢
        obtain ⟨x, hxb, hx⟩ := ht.exists_other b
        rcases delete_eq_null (ht.1 a) hc with ha | hleaf
        · have hxa : x ≠ a := fun h => hx (h ▸ ha)
          exact ⟨x, hxb, by simpa [hxa] using hx⟩
        · by_contra hnone
          push Not at hnone
          refine hlone ⟨b, hba, hleaf, fun y hy => ?_⟩
          by_contra hyab
          push Not at hyab
          have := hnone y hyab.2
          rw [Function.update_of_ne hyab.1] at this
          exact hy this
      · exact ⟨a, hba.symm, by simpa using hnull⟩
    obtain ⟨x, hxb, hx⟩ := two
    exact join_branch hxb hx (by simpa [hba] using hb)

theorem delete_ne_stub [Nonempty α] {t' : Trie α V D} (h : t.delete k = some t') (d : D) :
    t' ≠ stub d := by
  have graft_ne : ∀ (p : List α) (c : Trie α V D), p ≠ [] → graft p c ≠ stub d := by
    intro p c hp
    cases p with
    | nil => exact (hp rfl).elim
    | cons a p => cases c <;> simp [graft]
  induction t generalizing k t' with
  | null =>
      cases h
      simp
  | stub d => simp [delete] at h
  | leaf p v =>
      simp only [delete, Option.some.injEq] at h
      subst h
      split_ifs <;> simp
  | ext p c ih =>
      obtain ⟨s, c', rfl, hc', rfl⟩ | ⟨-, rfl⟩ := delete_ext_cases h
      · by_cases hp : p = []
        · rw [hp, graft_nil]
          exact ih hc'
        · exact graft_ne p c' hp
      · simp
  | branch f ih =>
      obtain ⟨a, k, c, rfl, _, rfl⟩ := delete_branch_cases h
      rcases join_cases (Function.update f a c) with ⟨b, _, he⟩ | ⟨_, he⟩
      · rw [he]
        exact graft_ne [b] _ (by simp)
      · rw [he]
        simp

/-- A path above a view keeps it a view, unless it is put above a stub that hides
a leaf or an extension. -/
theorem view_graft_iff {w : Trie α V D} (hw : w.Canonical) (ht : t.Canonical) {p : List α}
    (hp : p ≠ []) :
    View hides (graft p w) (graft p t) ↔
      View hides w t ∧ ∀ d, w = stub d → t.IsNode := by
  constructor
  · intro h
    refine ⟨view_of_graft hw ht p h, ?_⟩
    rintro d rfl
    rw [graft_node hp (isNode_stub d)] at h
    cases t with
    | branch g => exact isNode_branch g
    | stub d' => exact isNode_stub d'
    | null =>
        rw [graft_null] at h
        cases h
    | leaf q v =>
        rw [graft_leaf] at h
        cases h
    | ext q c =>
        rw [graft_ext] at h
        generalize hr : p ++ q = r at h
        cases h
        exact (ht.1 (by simpa using hr)).elim
  · rintro ⟨h, hsolid⟩
    exact view_graft h hsolid p

/-- Both tries have the same children next to the leaf of the key. -/
theorem lone_view_iff (hnull : ∀ d, ¬hides d null) {f g : α → Trie α V D}
    (hview : ∀ x, View hides (f x) (g x)) {a b : α} {c : Trie α V D}
    (hc : (f a).delete k = some c) : Lone f a k b ↔ Lone g a k b := by
  have hleaf : ∀ v, f a = leaf k v ↔ g a = leaf k v := by
    intro v
    have ha := hview a
    generalize f a = s at ha hc
    generalize g a = t at ha
    cases ha with
    | stub hd => simp [delete] at hc
    | _ => simp
  simp only [Lone, hleaf, Ne, view_null_iff hnull (hview _)]

/-- A deletion that succeeds on a view succeeds on the whole. Its result is a
view of the result exactly when no branch was collapsed onto a stub that hides a
leaf or an extension. -/
theorem delete_view [Nonempty α] (hnull : ∀ d, ¬hides d null) {w w' : Trie α V D} (ht : t.Canonical)
    (hview : View hides w t) (h : w.delete k = some w') :
    ∃ t', t.delete k = some t' ∧ (w' = null ↔ t' = null) ∧
      (View hides w' t' ↔ ¬Collapses w t k) := by
  induction hview generalizing k w' with
  | stub hd => simp [delete] at h
  | null =>
      cases h
      refine ⟨null, rfl, Iff.rfl, iff_of_true .null ?_⟩
      intro hc
      cases hc
  | leaf p v =>
      refine ⟨w', h, Iff.rfl, iff_of_true ?_ ?_⟩
      · simp only [delete, Option.some.injEq] at h
        subst h
        split_ifs
        · exact .null
        · exact .leaf p v
      · intro hc
        cases hc
  | @ext p w t hview ih =>
      obtain ⟨s, c, rfl, hc, rfl⟩ | ⟨hk, rfl⟩ := delete_ext_cases h
      · obtain ⟨c', hc', hcnull, hiff⟩ := ih ht.2.2 hc
        refine ⟨graft p c', by simp [delete, hc'], by rw [graft_eq_null, graft_eq_null, hcnull], ?_⟩
        have hcw := (delete_spec (view_canonical hnull hview ht.2.2) hc).1
        have hct := (delete_spec ht.2.2 hc').1
        rw [collapses_ext_iff, ← hiff, view_graft_iff hcw hct ht.1, and_iff_left]
        intro d hd
        exact (delete_ne_stub hc d hd).elim
      · refine ⟨ext p t, by simp [delete, dropPrefix?_eq_none hk], by simp, ?_⟩
        refine iff_of_true (.ext hview) ?_
        rintro (_ | _ | ⟨rfl, _⟩)
        exact hk (List.prefix_append p _)
  | @branch f g hview ih =>
      obtain ⟨a, k, c, rfl, hc, rfl⟩ := delete_branch_cases h
      obtain ⟨c', hc', hcnull, hiff⟩ := ih a (ht.1 a) hc
      have hw := view_canonical hnull (.branch hview) ht
      refine ⟨join (Function.update g a c'), by simp [delete, hc'], ?_, ?_⟩
      · obtain ⟨x, hxa, hx⟩ := hw.exists_other a
        obtain ⟨y, hya, hy⟩ := ht.exists_other a
        exact iff_of_false (join_ne_null (a := x) (by simpa [hxa] using hx))
          (join_ne_null (a := y) (by simpa [hya] using hy))
      · rcases join_delete_cases hw hc with ⟨b, hlone, rfl, he⟩ | ⟨hlone, he⟩
        · have hlone' := (lone_view_iff hnull hview hc).mp hlone
          rw [hcnull.mp rfl, he, join_update_null hlone'.1 hlone'.2.2,
            collapses_lone_iff hlone, view_graft_iff (hw.1 b) (ht.1 b) (by simp),
            and_iff_right (hview b)]
          push Not
          exact Iff.rfl
        · have hlone' := fun b => mt (lone_view_iff hnull hview hc).mpr (hlone b)
          rcases join_delete_cases ht hc' with ⟨b, hb, _⟩ | ⟨_, he'⟩
          · exact (hlone' b hb).elim
          · rw [he, he', collapses_branch_iff hlone, ← hiff]
            constructor
            · intro hbranch
              cases hbranch with
              | branch hall => simpa using hall a
            · exact fun hcview => .branch (view_update hview a hcview)

end Contents

end Trie

end Radix
