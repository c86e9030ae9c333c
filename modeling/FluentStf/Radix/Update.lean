import FluentStf.Radix.Trie

/-! Insertion and deletion on path-compressed tries, stated with the two ways
of restoring the canonical form: a path is grafted above what it leads to, and
the children of a branch are joined. Both operations stop at a stub, and where
a key would end inside a branch. -/
namespace Radix

variable {α V D : Type*}

/-- How a key relates to a path: it runs below the path, ends inside it, or
leaves it at one letter. -/
inductive Split (α : Type*) where
  | below (tail : List α)
  | above
  | fork (common : List α) (a : α) (left : List α) (b : α) (right : List α)

def Split.cons (a : α) : Split α → Split α
  | .fork common b left c right => .fork (a :: common) b left c right
  | other => other

theorem not_prefix_fork {a b : α} (hab : a ≠ b) (x l r : List α) :
    ¬x ++ a :: l <+: x ++ b :: r := by
  rw [List.prefix_append_right_inj, List.cons_prefix_cons]
  exact fun h => hab h.1

section

variable [DecidableEq α]

def split : List α → List α → Split α
  | [], key => .below key
  | _ :: _, [] => .above
  | a :: path, b :: key => if a = b then (split path key).cons a else .fork [] a path b key

@[simp] theorem split_append (p k : List α) : split p (p ++ k) = .below k := by
  induction p with
  | nil => rfl
  | cons a p ih => simp [split, ih, Split.cons]

@[simp] theorem split_above (k : List α) (a : α) (q : List α) : split (k ++ a :: q) k = .above := by
  induction k with
  | nil => rfl
  | cons b k ih => simp [split, ih, Split.cons]

theorem split_fork {a b : α} (h : a ≠ b) (c l r : List α) :
    split (c ++ a :: l) (c ++ b :: r) = .fork c a l b r := by
  induction c with
  | nil => simp [split, h]
  | cons x c ih => simp [split, ih, Split.cons]

theorem split_cases (p k : List α) :
    (∃ t, k = p ++ t) ∨ (∃ a q, p = k ++ a :: q) ∨
      ∃ c a l b r, a ≠ b ∧ p = c ++ a :: l ∧ k = c ++ b :: r := by
  induction p generalizing k with
  | nil => exact .inl ⟨k, rfl⟩
  | cons a p ih =>
      cases k with
      | nil => exact .inr (.inl ⟨a, p, rfl⟩)
      | cons b k =>
          by_cases hab : a = b
          · subst hab
            rcases ih k with ⟨t, rfl⟩ | ⟨c, q, rfl⟩ | ⟨c, x, l, y, r, hxy, rfl, rfl⟩
            · exact .inl ⟨t, rfl⟩
            · exact .inr (.inl ⟨c, q, rfl⟩)
            · exact .inr (.inr ⟨a :: c, x, l, y, r, hxy, rfl, rfl⟩)
          · exact .inr (.inr ⟨[], a, p, b, k, hab, rfl, rfl⟩)

namespace Trie

/-- Two children, all others absent. -/
def pair (a : α) (s : Trie α V D) (b : α) (t : Trie α V D) : α → Trie α V D :=
  Function.update (Function.update (fun _ => null) a s) b t

def insert (v : V) : Trie α V D → List α → Option (Trie α V D)
  | null, key => some (leaf key v)
  | leaf path w, key => match split path key with
    | .below [] => some (leaf path v)
    | .fork common a left b right =>
        some (graft common (branch (pair a (leaf left w) b (leaf right v))))
    | _ => none
  | ext path child, key => match split path key with
    | .below tail => (child.insert v tail).map (graft path)
    | .fork common a left b right =>
        some (graft common (branch (pair a (graft left child) b (leaf right v))))
    | .above => none
  | branch children, a :: tail =>
      ((children a).insert v tail).map fun c => branch (Function.update children a c)
  | branch _, [] => none
  | stub _, _ => none

noncomputable def delete : Trie α V D → List α → Option (Trie α V D)
  | null, _ => some null
  | leaf path w, key => some (if key = path then null else leaf path w)
  | ext path child, key => match key.dropPrefix? path with
    | some tail => (child.delete tail).map (graft path)
    | none => some (ext path child)
  | branch children, a :: tail =>
      ((children a).delete tail).map fun c => join (Function.update children a c)
  | branch _, [] => none
  | stub _, _ => none

variable {k : List α} {f : α → Trie α V D} {t' t : Trie α V D}

/-- What an insertion into a leaf does: the value is replaced, or the path is split. -/
theorem insert_leaf_cases {p : List α} {v w : V} (h : (leaf p w).insert v k = some t') :
    p = k ∧ leaf p v = t' ∨
      ∃ x a l b r, a ≠ b ∧ p = x ++ a :: l ∧ k = x ++ b :: r ∧
        graft x (branch (pair a (leaf l w) b (leaf r v))) = t' := by
  rcases split_cases p k with ⟨s, rfl⟩ | ⟨a, q, rfl⟩ | ⟨x, a, l, b, r, hab, rfl, rfl⟩
  · cases s with
    | cons a s => simp [insert] at h
    | nil =>
        simp only [insert, split_append, Option.some.injEq] at h
        exact .inl ⟨(List.append_nil p).symm, h⟩
  · simp [insert] at h
  · simp only [insert, split_fork hab, Option.some.injEq] at h
    exact .inr ⟨x, a, l, b, r, hab, rfl, rfl, h⟩

/-- What an insertion below an extension does: it goes on below, or the path is split. -/
theorem insert_ext_cases {p : List α} {v : V} {c : Trie α V D} (h : (ext p c).insert v k = some t')
    :
    (∃ tail c', k = p ++ tail ∧ c.insert v tail = some c' ∧ graft p c' = t') ∨
      ∃ x a l b r, a ≠ b ∧ p = x ++ a :: l ∧ k = x ++ b :: r ∧
        graft x (branch (pair a (graft l c) b (leaf r v))) = t' := by
  rcases split_cases p k with ⟨s, rfl⟩ | ⟨a, q, rfl⟩ | ⟨x, a, l, b, r, hab, rfl, rfl⟩
  · simp only [insert, split_append, Option.map_eq_some_iff] at h
    obtain ⟨c', hc', heq⟩ := h
    exact .inl ⟨s, c', rfl, hc', heq⟩
  · simp [insert] at h
  · simp only [insert, split_fork hab, Option.some.injEq] at h
    exact .inr ⟨x, a, l, b, r, hab, rfl, rfl, h⟩

/-- What an insertion into a branch does. -/
theorem insert_branch_cases {v : V} (h : (branch f).insert v k = some t') :
    ∃ a tail c, k = a :: tail ∧ (f a).insert v tail = some c ∧
      branch (Function.update f a c) = t' := by
  cases k with
  | nil => simp [insert] at h
  | cons a tail =>
      simp only [insert, Option.map_eq_some_iff] at h
      obtain ⟨c, hc, heq⟩ := h
      exact ⟨a, tail, c, rfl, hc, heq⟩

/-- What a deletion from a branch does. -/
theorem delete_branch_cases (h : (branch f).delete k = some t') :
    ∃ a tail c, k = a :: tail ∧ (f a).delete tail = some c ∧
      join (Function.update f a c) = t' := by
  cases k with
  | nil => simp [delete] at h
  | cons a tail =>
      simp only [delete, Option.map_eq_some_iff] at h
      obtain ⟨c, hc, heq⟩ := h
      exact ⟨a, tail, c, rfl, hc, heq⟩

/-- What a deletion below an extension does. -/
theorem delete_ext_cases {p : List α} {c : Trie α V D} (h : (ext p c).delete k = some t') :
    (∃ tail c', k = p ++ tail ∧ c.delete tail = some c' ∧ graft p c' = t') ∨
      ¬p <+: k ∧ ext p c = t' := by
  by_cases hk : p <+: k
  · obtain ⟨tail, rfl⟩ := hk
    simp only [delete, dropPrefix?_append, Option.map_eq_some_iff] at h
    obtain ⟨c', hc', heq⟩ := h
    exact .inl ⟨tail, c', rfl, hc', heq⟩
  · simp only [delete, dropPrefix?_eq_none hk, Option.some.injEq] at h
    exact .inr ⟨hk, h⟩

theorem pair_right (a : α) (s : Trie α V D) (b : α) (t : Trie α V D) : pair a s b t b = t := by
  simp [pair]

theorem pair_left {a b : α} (h : a ≠ b) (s t : Trie α V D) : pair a s b t a = s := by
  simp [pair, h]

theorem pair_other {a b x : α} (ha : x ≠ a) (hb : x ≠ b) (s t : Trie α V D) :
    pair a s b t x = null := by
  simp [pair, ha, hb]

theorem canonical_pair {a b : α} (h : a ≠ b) {s : Trie α V D} (hs : s.Canonical) (ht : t.Canonical)
    (hs0 : s ≠ null) (ht0 : t ≠ null) : (branch (pair a s b t)).Canonical := by
  refine ⟨fun x => ?_, a, b, h, by rwa [pair_left h], by rwa [pair_right]⟩
  by_cases hb : x = b
  · rw [hb, pair_right]
    exact ht
  · by_cases ha : x = a
    · rw [ha, pair_left h]
      exact hs
    · rw [pair_other ha hb]
      trivial

/-- Changing one entry below a path changes one entry of the whole. -/
theorem entry_graft_update {s : Trie α V D} {x : Option (V ⊕ D)}
    (h : t.entry = Function.update s.entry k x) (p : List α) :
    (graft p t).entry = Function.update (graft p s).entry (p ++ k) x := by
  funext q
  by_cases hq : p <+: q
  · obtain ⟨r, rfl⟩ := hq
    rw [entry_graft_append, h]
    by_cases hr : r = k
    · subst hr
      simp
    · rw [Function.update_of_ne hr, Function.update_of_ne (by simpa using hr), entry_graft_append]
  · rw [entry_graft_none hq, Function.update_of_ne, entry_graft_none hq]
    rintro rfl
    exact hq (List.prefix_append p k)

/-- A path that splits above a nonempty rest gets a second way out. -/
theorem entry_pair {a b : α} (h : a ≠ b) (l r : List α) (t : Trie α V D) (v : V) :
    (branch (pair a (graft l t) b (leaf r v))).entry =
      Function.update (graft (a :: l) t).entry (b :: r) (some (.inl v)) := by
  funext q
  cases q with
  | nil =>
      rw [entry_branch_nil, Function.update_of_ne (by simp), entry_graft_none (by simp)]
  | cons x q =>
      rw [entry_branch_cons]
      by_cases hb : x = b
      · subst hb
        rw [pair_right]
        by_cases hq : q = r
        · simp [hq, entry]
        · have hnot : ¬a :: l <+: x :: q := by
            rintro ⟨s, hs⟩
            exact h (List.cons.inj hs).1
          rw [Function.update_of_ne (by simpa using hq), entry_graft_none hnot]
          simp [entry, hq]
      · rw [Function.update_of_ne (by simp [hb])]
        by_cases ha : x = a
        · subst ha
          rw [pair_left h]
          simp [entry_graft, List.dropPrefix?]
        · rw [pair_other ha hb, entry_null, entry_graft_none]
          rintro ⟨s, hs⟩
          exact ha (List.cons.inj hs).1.symm

/-- Where an insertion succeeds it sets one entry and keeps the canonical form. -/
theorem insert_spec {v : V} (ht : t.Canonical) (h : t.insert v k = some t') :
    t'.Canonical ∧ t' ≠ null ∧ t'.entry = Function.update t.entry k (some (.inl v)) := by
  -- The new branch of a split path, below the letters both paths share.
  have forked : ∀ (c : List α) {a b : α} (l r : List α) (u : Trie α V D), a ≠ b → u.Canonical →
      u ≠ null →
      (graft c (branch (pair a (graft l u) b (leaf r v)))).Canonical ∧
      graft c (branch (pair a (graft l u) b (leaf r v))) ≠ null ∧
      (graft c (branch (pair a (graft l u) b (leaf r v)))).entry =
        Function.update (graft (c ++ a :: l) u).entry (c ++ b :: r) (some (.inl v)) := by
    intro c a b l r u hab hu hu0
    refine ⟨(canonical_pair hab (hu.graft l) (canonical_leaf r v) (by simpa using hu0)
      (by simp)).graft c,
      by simp, ?_⟩
    rw [graft_append]
    exact entry_graft_update (entry_pair hab l r u v) c
  induction t generalizing k t' with
  | null =>
      cases h
      refine ⟨trivial, by simp, ?_⟩
      funext q
      by_cases hq : q = k <;> simp [entry, hq, Function.update]
  | stub d => simp [insert] at h
  | leaf p w =>
      obtain ⟨rfl, rfl⟩ | ⟨c, a, l, b, r, hab, rfl, rfl, rfl⟩ := insert_leaf_cases h
      · refine ⟨trivial, by simp, ?_⟩
        funext q
        by_cases hq : q = p <;> simp [entry, hq, Function.update]
      · have hf := forked c l r (leaf [] w) hab trivial (by simp)
        simpa using hf
  | ext p c ih =>
      obtain ⟨s, c', rfl, hc', rfl⟩ | ⟨x, a, l, b, r, hab, rfl, rfl, rfl⟩ := insert_ext_cases h
      · obtain ⟨hcan, hne, hentry⟩ := ih ht.2.2 hc'
        refine ⟨hcan.graft p, by simpa using hne, ?_⟩
        rw [ht.ext_eq_graft]
        exact entry_graft_update hentry p
      · have hc0 : c ≠ null := by
          rintro rfl
          exact ht.2.1
        rw [ht.ext_eq_graft]
        exact forked x l r c hab ht.2.2 hc0
  | branch f ih =>
      obtain ⟨a, k, c, rfl, hc, rfl⟩ := insert_branch_cases h
      obtain ⟨hcan, hne, hentry⟩ := ih a (ht.1 a) hc
      refine ⟨⟨fun x => ?_, ?_⟩, by simp, ?_⟩
      · by_cases hx : x = a
        · subst hx
          simpa using hcan
        · simpa [hx] using ht.1 x
      · obtain ⟨x, y, hxy, hx, hy⟩ := ht.2
        refine ⟨x, y, hxy, ?_, ?_⟩
        · by_cases hxa : x = a
          · subst hxa
            simpa using hne
          · simpa [hxa] using hx
        · by_cases hya : y = a
          · subst hya
            simpa using hne
          · simpa [hya] using hy
      · funext q
        cases q with
        | nil => simp
        | cons x q =>
            by_cases hx : x = a
            · subst hx
              by_cases hq : q = k <;> simp [hentry, hq, Function.update]
            · simp [hx, Function.update]

/-- Where a deletion succeeds it clears one entry and keeps the canonical form. -/
theorem delete_spec [Nonempty α] (ht : t.Canonical) (h : t.delete k = some t') :
    t'.Canonical ∧ t'.entry = Function.update t.entry k none := by
  induction t generalizing k t' with
  | null =>
      cases h
      exact ⟨trivial, by simp⟩
  | stub d => simp [delete] at h
  | leaf p w =>
      simp only [delete, Option.some.injEq] at h
      subst h
      by_cases hk : k = p
      · rw [if_pos hk]
        refine ⟨trivial, ?_⟩
        funext q
        by_cases hq : q = p <;> simp [entry, hk, hq, Function.update]
      · rw [if_neg hk]
        refine ⟨trivial, (Function.update_eq_self_iff.mpr ?_).symm⟩
        simp [entry, hk]
  | ext p c ih =>
      obtain ⟨s, c', rfl, hc', rfl⟩ | ⟨hk, rfl⟩ := delete_ext_cases h
      · obtain ⟨hcan, hentry⟩ := ih ht.2.2 hc'
        refine ⟨hcan.graft p, ?_⟩
        rw [ht.ext_eq_graft]
        exact entry_graft_update hentry p
      · exact ⟨ht, (Function.update_eq_self_iff.mpr (entry_ext_none hk c).symm).symm⟩
  | branch f ih =>
      obtain ⟨a, k, c, rfl, hc, rfl⟩ := delete_branch_cases h
      obtain ⟨hcan, hentry⟩ := ih a (ht.1 a) hc
      refine ⟨canonical_join fun x => ?_, ?_⟩
      · by_cases hx : x = a
        · subst hx
          simpa using hcan
        · simpa [hx] using ht.1 x
      · funext q
        cases q with
        | nil => simp [entry_join_nil]
        | cons x q =>
            rw [entry_join_cons]
            by_cases hx : x = a
            · subst hx
              by_cases hq : q = k <;> simp [hentry, hq, Function.update]
            · simp [hx, Function.update]

/-- Below an extension an insertion keeps a branch a branch. -/
theorem insert_isNode {v : V} (ht : t.IsNode) (h : t.insert v k = some t') : t'.IsNode := by
  cases t with
  | branch f =>
      obtain ⟨a, k, c, rfl, _, rfl⟩ := insert_branch_cases h
      exact isNode_branch _
  | stub d => simp [insert] at h
  | _ => exact False.elim ht

/-- A deletion that finds nothing changes nothing. -/
theorem delete_absent (ht : t.Canonical) (h : t.entry k = none) (hd : t.delete k = some t') :
    t' = t := by
  induction t generalizing k t' with
  | null => simpa [delete, eq_comm] using hd
  | stub d => simp [delete] at hd
  | leaf p w =>
      by_cases hk : k = p
      · simp [entry, hk] at h
      · simpa [delete, hk, eq_comm] using hd
  | ext p c ih =>
      obtain ⟨s, c', rfl, hc', rfl⟩ | ⟨-, rfl⟩ := delete_ext_cases hd
      · rw [entry_ext_append] at h
        rw [ih ht.2.2 h hc', ← ht.ext_eq_graft]
      · rfl
  | branch f ih =>
      obtain ⟨a, k, c, rfl, hc, rfl⟩ := delete_branch_cases hd
      obtain ⟨x, y, hxy, hx, hy⟩ := ht.2
      rw [ih a (ht.1 a) h hc, Function.update_eq_self, join_branch hxy hx hy]

/-- A key is free for a trie when it runs neither above nor below any entry,
except that it may hold a value itself. -/
def Free (t : Trie α V D) (k : List α) : Prop :=
  ∀ q x, t.entry q = some x → q <+: k ∨ k <+: q → q = k ∧ ∃ v, x = .inl v

theorem Free.ext_tail {p : List α} {c : Trie α V D} (h : (ext p c).Free (p ++ k)) : c.Free k := by
  intro q x hq hk
  have := h (p ++ q) x (by simpa using hq) (by simpa [List.prefix_append_right_inj] using hk)
  simpa using this

theorem Free.branch_tail {a : α} (h : (branch f).Free (a :: k)) : (f a).Free k := by
  intro q x hq hk
  have := h (a :: q) x hq (by simpa using hk)
  simpa using this

/-- A free key never ends inside a trie that has other entries. -/
theorem Free.not_inside {p q : List α} {x : V ⊕ D} {a : α} (h : t.Free k) (he : t.entry q = some x)
    (hk : k ++ a :: p <+: q) : False := by
  have hq : k <+: q := (List.prefix_append k (a :: p)).trans hk
  have hlen := hk.length_le
  rw [(h q x he (.inr hq)).1, List.length_append, List.length_cons] at hlen
  omega

/-- A key stays free when a value is set or removed at a key beside it. -/
theorem Free.update {k' : List α} {x : Option V} (h : t.Free k)
    (he : t'.entry = Function.update t.entry k' (x.map .inl))
    (hbeside : k' <+: k ∨ k <+: k' → k' = k) : t'.Free k := by
  intro q y hq hk
  rw [he] at hq
  by_cases hqk : q = k'
  · subst hqk
    rw [Function.update_self, Option.map_eq_some_iff] at hq
    obtain ⟨v, _, rfl⟩ := hq
    exact ⟨hbeside hk, v, rfl⟩
  · rw [Function.update_of_ne hqk] at hq
    exact h q y hq hk

/-- The key that ends at a branch is not free: an entry lies below it. -/
theorem Canonical.branch_not_free (ht : (branch f).Canonical) :
    ¬ (branch f).Free [] := by
  intro hfree
  obtain ⟨s, x, hs⟩ := ht.exists_entry (by simp)
  cases s with
  | nil => simp at hs
  | cons a s => exact hfree.not_inside (p := s) hs (List.prefix_refl _)

theorem insert_of_free (v : V) (ht : t.Canonical) (hfree : t.Free k) :
    ∃ t', t.insert v k = some t' := by
  induction t generalizing k with
  | null => exact ⟨_, rfl⟩
  | stub d =>
      obtain ⟨_, w, hw⟩ := hfree [] (.inr d) (by simp [entry]) (.inl (List.nil_prefix))
      cases hw
  | leaf p w =>
      have hentry : (leaf p w : Trie α V D).entry p = some (.inl w) := by simp [entry]
      rcases split_cases p k with ⟨s, rfl⟩ | ⟨a, q, rfl⟩ | ⟨c, a, l, b, r, hab, rfl, rfl⟩
      · have hs : s = [] := by
          have := (hfree p _ hentry (.inl (List.prefix_append p s))).1
          simpa using this
        subst hs
        exact ⟨leaf p v, by simp only [insert, split_append]⟩
      · exact (hfree.not_inside hentry (List.prefix_refl _)).elim
      · exact ⟨_, by simp only [insert, split_fork hab]; rfl⟩
  | ext p c ih =>
      rcases split_cases p k with ⟨s, rfl⟩ | ⟨a, q, rfl⟩ | ⟨x, a, l, b, r, hab, rfl, rfl⟩
      · obtain ⟨c', hc'⟩ := ih ht.2.2 hfree.ext_tail
        exact ⟨graft p c', by simp [insert, hc']⟩
      · obtain ⟨s, x, hs⟩ := ht.exists_entry (by simp)
        obtain ⟨r, rfl, _⟩ := entry_ext_eq_some.mp hs
        exact (hfree.not_inside hs (List.prefix_append _ r)).elim
      · exact ⟨_, by simp only [insert, split_fork hab]; rfl⟩
  | branch f ih =>
      cases k with
      | nil => exact (ht.branch_not_free hfree).elim
      | cons a k =>
          obtain ⟨c, hc⟩ := ih a (ht.1 a) hfree.branch_tail
          exact ⟨branch (Function.update f a c), by simp [insert, hc]⟩

theorem delete_of_free (ht : t.Canonical) (hfree : t.Free k) : ∃ t', t.delete k = some t' := by
  induction t generalizing k with
  | null => exact ⟨_, rfl⟩
  | leaf p w => exact ⟨_, rfl⟩
  | stub d =>
      obtain ⟨_, w, hw⟩ := hfree [] (.inr d) (by simp [entry]) (.inl (List.nil_prefix))
      cases hw
  | ext p c ih =>
      by_cases hk : p <+: k
      · obtain ⟨s, rfl⟩ := hk
        obtain ⟨c', hc'⟩ := ih ht.2.2 hfree.ext_tail
        exact ⟨graft p c', by simp [delete, hc']⟩
      · exact ⟨ext p c, by simp [delete, dropPrefix?_eq_none hk]⟩
  | branch f ih =>
      cases k with
      | nil => exact (ht.branch_not_free hfree).elim
      | cons a k =>
          obtain ⟨c, hc⟩ := ih a (ht.1 a) hfree.branch_tail
          exact ⟨join (Function.update f a c), by simp [delete, hc]⟩

end Trie

end

end Radix
