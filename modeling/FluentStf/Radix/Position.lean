import FluentStf.Radix.View

/-! Positions of the nodes of a trie. When some entries of a trie are changed,
a node off the paths of the changed keys stays at its position, or its parent
collapses and a leaf or an extension higher up takes over its path. -/
namespace Radix.Trie

variable {α V D : Type*}

/-- The given trie is the node at this position. -/
inductive NodeAt : Trie α V D → List α → Trie α V D → Prop where
  | here (t : Trie α V D) : NodeAt t [] t
  | ext {p q : List α} {c u : Trie α V D} (h : NodeAt c q u) : NodeAt (ext p c) (p ++ q) u
  | branch {f : α → Trie α V D} {a : α} {q : List α} {u : Trie α V D} (h : NodeAt (f a) q u) :
      NodeAt (branch f) (a :: q) u

theorem nodeAt_nil {t u : Trie α V D} (ht : t.Canonical) (h : NodeAt t [] u) : u = t := by
  generalize hq : ([] : List α) = q at h
  cases h with
  | here => rfl
  | ext h => exact (ht.1 (List.append_eq_nil_iff.mp hq.symm).1).elim
  | branch h => cases hq

theorem nodeAt_canonical {t u : Trie α V D} {q : List α} (ht : t.Canonical) (h : NodeAt t q u) :
    u.Canonical := by
  induction h with
  | here => exact ht
  | ext h ih => exact ih ht.2.2
  | branch h ih => exact ih (ht.1 _)

/-- A letter put above a trie moves its nodes down, but a leaf or an extension at
the top takes the letter into its path. -/
theorem NodeAt.under {t x : Trie α V D} {r : List α} (h : NodeAt t r x) (ht : t ≠ null) (a : α) :
    (r = [] ∧ x = t ∧ ¬t.IsNode) ∨ NodeAt (graft [a] t) (a :: r) x := by
  cases h with
  | ext h =>
      rw [graft_ext]
      exact .inr (.ext h)
  | branch h =>
      rw [graft_node (List.cons_ne_nil a []) (isNode_branch _)]
      exact .inr (.ext (.branch h))
  | here =>
      cases t with
      | null => exact (ht rfl).elim
      | leaf p v => exact .inl ⟨rfl, rfl, id⟩
      | ext p c => exact .inl ⟨rfl, rfl, id⟩
      | branch f => exact .inr (.ext (.here _))
      | stub d => exact .inr (.ext (.here _))

section

variable [DecidableEq α]

/-- The trie of everything below a position. -/
def subtrie (t : Trie α V D) (q : List α) : Trie α V D := q.foldl (fun t a => t.derive a) t

@[simp] theorem subtrie_nil (t : Trie α V D) : t.subtrie [] = t := rfl

@[simp] theorem subtrie_cons (t : Trie α V D) (a : α) (q : List α) :
    t.subtrie (a :: q) = (t.derive a).subtrie q := rfl

@[simp] theorem subtrie_null (q : List α) : (null : Trie α V D).subtrie q = null := by
  induction q with
  | nil => rfl
  | cons a q ih => exact ih

theorem subtrie_append (t : Trie α V D) (q r : List α) :
    t.subtrie (q ++ r) = (t.subtrie q).subtrie r :=
  List.foldl_append

variable {t : Trie α V D} {q : List α}

theorem Canonical.subtrie (ht : t.Canonical) (q : List α) :
    (t.subtrie q).Canonical := by
  induction q generalizing t with
  | nil => exact ht
  | cons a q ih => exact ih (ht.derive a)

theorem entry_subtrie (ht : t.Canonical) (q k : List α) :
    (t.subtrie q).entry k = t.entry (q ++ k) := by
  induction q generalizing t with
  | nil => rfl
  | cons a q ih => rw [subtrie_cons, ih (ht.derive a), entry_derive ht, List.cons_append]

theorem subtrie_graft (ht : t.Canonical) (p : List α) :
    (graft p t).subtrie p = t := by
  induction p with
  | nil => simp
  | cons a p ih => rw [subtrie_cons, derive_graft_cons ht, if_pos rfl, ih]

theorem NodeAt.subtrie {u : Trie α V D} (ht : t.Canonical) (h : NodeAt t q u) :
    t.subtrie q = u := by
  induction h with
  | here => rfl
  | ext h ih => rw [ht.ext_eq_graft, subtrie_append, subtrie_graft ht.2.2, ih ht.2.2]
  | branch h ih => exact ih (ht.1 _)

/-- The entries below a node are those of the node. -/
theorem NodeAt.entry {u : Trie α V D} (ht : t.Canonical) (h : NodeAt t q u) (k : List α) :
    t.entry (q ++ k) = u.entry k := by
  rw [← entry_subtrie ht, h.subtrie ht]

/-- A leaf or an extension is its first letter above the rest. -/
theorem Canonical.eq_graft_derive (ht : t.Canonical) {a : α} (h : t.derive a ≠ null) :
    (∃ f, t = branch f) ∨ t = Trie.graft [a] (t.derive a) := by
  cases t with
  | null => exact (h rfl).elim
  | stub d => exact (h rfl).elim
  | branch f => exact .inl ⟨f, rfl⟩
  | leaf p v =>
      cases p with
      | nil => exact (h rfl).elim
      | cons b p =>
          by_cases hab : a = b
          · simp [Trie.derive, hab]
          · exact (h (if_neg hab)).elim
  | ext p c =>
      cases p with
      | nil => exact (h rfl).elim
      | cons b p =>
          by_cases hab : a = b
          · rw [Trie.derive, if_pos hab, ← graft_append, hab, List.singleton_append]
            exact .inr ht.ext_eq_graft
          · exact (h (if_neg hab)).elim

/-- What lies below a position is the node there, or the end of a path that
starts further up. -/
theorem nodeAt_of_subtrie {u : Trie α V D} (ht : t.Canonical) (hu : u ≠ null) (h : t.subtrie q = u)
    :
    NodeAt t q u ∨ ∃ r s, q = r ++ s ∧ s ≠ [] ∧ NodeAt t r (graft s u) ∧ ¬u.IsNode := by
  induction q generalizing t with
  | nil =>
      obtain rfl : t = u := h
      exact .inl (.here t)
  | cons a q ih =>
      rw [subtrie_cons] at h
      have hne : t.derive a ≠ null := by
        intro hnull
        rw [hnull, subtrie_null] at h
        exact hu h.symm
      have hcases := ih (ht.derive a) h
      rcases ht.eq_graft_derive hne with ⟨f, rfl⟩ | hgraft
      · rcases hcases with hn | ⟨r, s, rfl, hs, hn, hpath⟩
        · exact .inl (.branch hn)
        · exact .inr ⟨a :: r, s, rfl, hs, .branch hn, hpath⟩
      · rcases hcases with hn | ⟨r, s, rfl, hs, hn, hpath⟩
        · rcases hn.under hne a with ⟨rfl, rfl, hpath⟩ | hn'
          · exact .inr ⟨[], [a], rfl, by simp, hgraft ▸ .here t, hpath⟩
          · exact .inl (by rwa [hgraft])
        · rcases hn.under hne a with ⟨rfl, hu', _⟩ | hn'
          · refine .inr ⟨[], a :: s, rfl, by simp, ?_, hpath⟩
            rw [← List.singleton_append, graft_append, hu', ← hgraft]
            exact .here t
          · exact .inr ⟨a :: r, s, rfl, hs, by rwa [hgraft], hpath⟩

/-- Beside a leaf or an extension there is another entry, since its parent is a
branch. -/
theorem NodeAt.exists_beside {u : Trie α V D} (ht : t.Canonical) (h : NodeAt t q u) (hq : q ≠ [])
    (hu : ¬u.IsNode) :
    ∃ q₀ a k x, q = q₀ ++ [a] ∧ t.entry k = some x ∧ q₀ <+: k ∧ ¬q <+: k := by
  induction h with
  | here => exact (hq rfl).elim
  | @ext p q c u h ih =>
      by_cases hq' : q = []
      · subst hq'
        rw [nodeAt_nil ht.2.2 h] at hu
        exact (hu ht.2.1).elim
      · obtain ⟨q₀, a, k, x, rfl, hk, hpre, hout⟩ := ih ht.2.2 hq' hu
        refine ⟨p ++ q₀, a, p ++ k, x, by simp, by simpa using hk, ?_, ?_⟩
        · rwa [List.prefix_append_right_inj]
        · rwa [List.prefix_append_right_inj]
  | @branch f a q u h ih =>
      by_cases hq' : q = []
      · subst hq'
        obtain ⟨b, hba, hb⟩ := Canonical.exists_other ht a
        obtain ⟨k, x, hk⟩ := (ht.1 b).exists_entry hb
        refine ⟨[], a, b :: k, x, rfl, hk, List.nil_prefix, ?_⟩
        rw [List.cons_prefix_cons]
        exact fun hab => hba hab.1.symm
      · obtain ⟨q₀, b, k, x, rfl, hk, hpre, hout⟩ := ih (ht.1 a) hq' hu
        refine ⟨a :: q₀, b, a :: k, x, rfl, hk, ?_, ?_⟩
        · rw [List.cons_prefix_cons]
          exact ⟨rfl, hpre⟩
        · rw [List.cons_prefix_cons]
          exact fun hin => hout hin.2

/-- Change the entries of some keys. A node that is on no path of a changed key
stays where it is, or it is the end of the path of a node that is on one. -/
theorem NodeAt.after_change [Nonempty α] {t' u : Trie α V D} {keys : Set (List α)}
    (ht : t.Canonical) (ht' : t'.Canonical) (hsame : ∀ k, k ∉ keys → t'.entry k = t.entry k)
    (h : NodeAt t q u) (hu : u ≠ null) (hq : ∀ k ∈ keys, ¬q <+: k) :
    NodeAt t' q u ∨
      ∃ r s k, k ∈ keys ∧ r <+: k ∧ NodeAt t' r (graft s u) ∧ ¬u.IsNode := by
  have hsub : t'.subtrie q = u := by
    apply (ht'.subtrie q).eq_of_entry (nodeAt_canonical ht h)
    funext k
    rw [entry_subtrie ht', hsame, h.entry ht]
    exact fun hk => hq _ hk (List.prefix_append q k)
  rcases nodeAt_of_subtrie ht' hu hsub with hn | ⟨r, s, rfl, hs, hn, hpath⟩
  · exact .inl hn
  · have hne : r ++ s ≠ [] := by simp [hs]
    obtain ⟨q₀, a, k, x, hq₀, hk, hpre, hout⟩ := h.exists_beside ht hne hpath
    -- The path of the new node passes the branch above, so a key beside it is gone.
    have hr : r <+: k := by
      have hle : r <+: q₀ := by
        have hlen : r.length ≤ q₀.length := by
          have := congrArg List.length hq₀
          have := List.length_pos_of_ne_nil hs
          simp only [List.length_append, List.length_singleton] at *
          omega
        apply List.prefix_of_prefix_length_le (List.prefix_append r s) _ hlen
        rw [hq₀]
        exact List.prefix_append q₀ [a]
      exact hle.trans hpre
    refine .inr ⟨r, s, k, ?_, hr, hn, hpath⟩
    by_contra hmem
    obtain ⟨l, rfl⟩ := hr
    rw [← hsame _ hmem, hn.entry ht', entry_graft] at hk
    cases hl : l.dropPrefix? s with
    | none => simp [hl] at hk
    | some m =>
        apply hout
        rw [List.prefix_append_right_inj, dropPrefix?_eq_some.mp hl]
        exact List.prefix_append s m

section Views

variable {hides : D → Trie α V D → Prop}

/-- A stub of a view stands for the node at its position. -/
theorem view_entry_inr {w t : Trie α V D} (h : View hides w t) {q : List α} {d : D}
    (hq : w.entry q = some (.inr d)) : ∃ u, NodeAt t q u ∧ hides d u := by
  induction h generalizing q with
  | @stub d' t hd =>
      obtain ⟨rfl, he⟩ := entry_stub_eq_some.mp hq
      cases he
      exact ⟨t, .here t, hd⟩
  | null => cases hq
  | leaf p v => cases (entry_leaf_eq_some.mp hq).2
  | @ext p w t hview ih =>
      obtain ⟨r, rfl, hr⟩ := entry_ext_eq_some.mp hq
      obtain ⟨u, hu, hd⟩ := ih hr
      exact ⟨u, .ext hu, hd⟩
  | branch hview ih =>
      cases q with
      | nil => cases hq
      | cons a q =>
          obtain ⟨u, hu, hd⟩ := ih a hq
          exact ⟨u, .branch hu, hd⟩

/-- Every entry is shown by a view, or a stub stands in front of it. -/
theorem view_covers {w t : Trie α V D} (h : View hides w t) {k : List α} {x : V ⊕ D}
    (hk : t.entry k = some x) : ∃ q y, q <+: k ∧ w.entry q = some y := by
  induction h generalizing k with
  | @stub d t hd => exact ⟨[], .inr d, List.nil_prefix, by simp [entry]⟩
  | null => cases hk
  | leaf p v => exact ⟨k, x, List.prefix_refl k, hk⟩
  | @ext p w t hview ih =>
      obtain ⟨r, rfl, hr⟩ := entry_ext_eq_some.mp hk
      obtain ⟨q, y, hq, hy⟩ := ih hr
      exact ⟨p ++ q, y, by rwa [List.prefix_append_right_inj], by rwa [entry_ext_append]⟩
  | branch hview ih =>
      cases k with
      | nil => cases hk
      | cons a k =>
          obtain ⟨q, y, hq, hy⟩ := ih a hk
          exact ⟨a :: q, y, by rwa [List.cons_prefix_cons, and_iff_right rfl], hy⟩

/-- The entries of one trie belong to a view of another: its values are values of
the other, its stubs stand for nodes of it, and together they cover it. -/
structure Shows (hides : D → Trie α V D → Prop) (w t : Trie α V D) : Prop where
  value : ∀ q v, w.entry q = some (.inl v) → t.entry q = some (.inl v)
  stub : ∀ q d, w.entry q = some (.inr d) → ∃ u, NodeAt t q u ∧ hides d u
  covers : ∀ k x, t.entry k = some x → ∃ q y, q <+: k ∧ w.entry q = some y

theorem View.shows {w t : Trie α V D} (h : View hides w t) : Shows hides w t :=
  ⟨fun _ _ => view_entry_inl h, fun _ _ => view_entry_inr h, fun _ _ => view_covers h⟩

namespace Shows

variable {w t : Trie α V D}

/-- Either the whole is hidden, or there is no stub at the top. -/
theorem view_or (h : Shows hides w t) (hw : w.Canonical) (ht : t.Canonical) :
    View hides w t ∨ ∀ d, w.entry [] ≠ some (.inr d) := by
  by_cases htop : ∃ d, w.entry [] = some (.inr d)
  · obtain ⟨d, hd⟩ := htop
    obtain ⟨u, hu, hides⟩ := h.stub [] d hd
    rw [entry_nil_inr hw hd]
    rw [nodeAt_nil ht hu] at hides
    exact .inl (.stub hides)
  · exact .inr (not_exists.mp htop)

/-- Entries of a view lie below the path of an extension, unless all is hidden. -/
theorem under_ext {p q : List α} {c : Trie α V D} {y : V ⊕ D} (h : Shows hides w (ext p c))
    (htop : ∀ d, w.entry [] ≠ some (.inr d)) (hy : w.entry q = some y) : p <+: q := by
  cases y with
  | inl v =>
      obtain ⟨r, rfl, _⟩ := entry_ext_eq_some.mp (h.value q v hy)
      exact List.prefix_append p r
  | inr d =>
      obtain ⟨u, hu, _⟩ := h.stub q d hy
      cases hu with
      | here => exact (htop d hy).elim
      | ext hu => exact List.prefix_append p _

theorem nil_branch {f : α → Trie α V D} {y : V ⊕ D} (h : Shows hides w (branch f))
    (htop : ∀ d, w.entry [] ≠ some (.inr d)) (hy : w.entry [] = some y) : False := by
  cases y with
  | inl v => cases h.value [] v hy
  | inr d => exact htop d hy

/-- The entries below a path that all entries share. -/
theorem ext_child {p : List α} {c : Trie α V D} (h : Shows hides w (ext p c)) (hw : w.Canonical)
    (hp : p ≠ []) (htop : ∀ d, w.entry [] ≠ some (.inr d)) : Shows hides (w.subtrie p) c where
  value q v hq := by
    rw [entry_subtrie hw] at hq
    rw [← entry_ext_append p]
    exact h.value _ v hq
  stub q d hq := by
    rw [entry_subtrie hw] at hq
    obtain ⟨u, hu, hd⟩ := h.stub _ d hq
    generalize hr : p ++ q = r at hu
    cases hu with
    | here => exact (hp (List.append_eq_nil_iff.mp hr).1).elim
    | ext hu =>
        rw [List.append_cancel_left hr]
        exact ⟨u, hu, hd⟩
  covers k x hk := by
    obtain ⟨q, y, hq, hy⟩ := h.covers (p ++ k) x (by rwa [entry_ext_append])
    have hpre : p <+: q := h.under_ext htop hy
    obtain ⟨r, rfl⟩ := hpre
    rw [List.prefix_append_right_inj] at hq
    exact ⟨r, y, hq, by rwa [entry_subtrie hw]⟩

theorem branch_child {f : α → Trie α V D} (h : Shows hides w (branch f)) (hw : w.Canonical)
    (htop : ∀ d, w.entry [] ≠ some (.inr d)) (a : α) : Shows hides (w.derive a) (f a) where
  value q v hq := by
    rw [entry_derive hw] at hq
    exact h.value _ v hq
  stub q d hq := by
    rw [entry_derive hw] at hq
    obtain ⟨u, hu, hd⟩ := h.stub _ d hq
    cases hu with
    | branch hu => exact ⟨u, hu, hd⟩
  covers k x hk := by
    obtain ⟨q, y, hq, hy⟩ := h.covers (a :: k) x hk
    cases q with
    | nil => exact (h.nil_branch htop hy).elim
    | cons b q =>
        obtain ⟨rfl, hpre⟩ := List.cons_prefix_cons.mp hq
        exact ⟨q, y, hpre, by rwa [entry_derive hw]⟩

end Shows

/-- A canonical trie with the entries of a view is a view. -/
theorem Shows.view [Nonempty α] (hnull : ∀ d, ¬hides d null) {w t : Trie α V D}
    (h : Shows hides w t) (hw : w.Canonical) (ht : t.Canonical) : View hides w t := by
  induction t generalizing w with
  | null =>
      suffices hw0 : w = null by
        rw [hw0]
        exact .null
      by_contra hne
      obtain ⟨k, x, hk⟩ := hw.exists_entry hne
      cases x with
      | inl v => cases h.value k v hk
      | inr d =>
          obtain ⟨u, hu, hd⟩ := h.stub k d hk
          cases hu
          exact hnull d hd
  | stub d =>
      rcases h.view_or hw ht with hview | htop
      · exact hview
      obtain ⟨q, y, hq, hy⟩ := h.covers [] (.inr d) (by simp [entry])
      rw [List.prefix_nil.mp hq] at hy
      cases y with
      | inl v => simpa [entry] using h.value [] v hy
      | inr d => exact (htop d hy).elim
  | leaf p v =>
      rcases h.view_or hw ht with hview | htop
      · exact hview
      -- Every entry is the value of the leaf, and the leaf is covered.
      have only : ∀ q y, w.entry q = some y → q = p ∧ y = .inl v := by
        intro q y hy
        cases y with
        | inl v' => exact entry_leaf_eq_some.mp (h.value q v' hy)
        | inr d =>
            obtain ⟨u, hu, _⟩ := h.stub q d hy
            cases hu
            exact (htop d hy).elim
      obtain ⟨q, y, _, hy⟩ := h.covers p (.inl v) (by simp [entry])
      obtain ⟨rfl, rfl⟩ := only q y hy
      have he : w.entry = (leaf q v).entry := by
        funext k
        by_cases hk : k = q
        · rw [hk, hy]
          simp [entry]
        · have hnone : w.entry k = none :=
            Option.eq_none_iff_forall_ne_some.mpr fun y hy' => hk (only k y hy').1
          simp [entry, hk, hnone]
      rw [hw.eq_of_entry (canonical_leaf q v) he]
      exact .leaf q v
  | ext p c ih =>
      rcases h.view_or hw ht with hview | htop
      · exact hview
      have hchild := ih (h.ext_child hw ht.1 htop) (hw.subtrie p) ht.2.2
      have hcan : (ext p (w.subtrie p)).Canonical :=
        ⟨ht.1, view_isNode hchild ht.2.1, hw.subtrie p⟩
      have he : w.entry = (ext p (w.subtrie p)).entry := by
        funext q
        by_cases hp : p <+: q
        · obtain ⟨r, rfl⟩ := hp
          rw [entry_ext_append, entry_subtrie hw]
        · rw [entry_ext_none hp]
          exact Option.eq_none_iff_forall_ne_some.mpr fun y hy => hp (h.under_ext htop hy)
      rw [hw.eq_of_entry hcan he]
      exact .ext hchild
  | branch f ih =>
      rcases h.view_or hw ht with hview | htop
      · exact hview
      have hchild : ∀ a, View hides (w.derive a) (f a) := fun a =>
        ih a (h.branch_child hw htop a) (hw.derive a) (ht.1 a)
      have hcan : (branch fun a => w.derive a).Canonical := by
        obtain ⟨a, b, hab, ha, hb⟩ := ht.2
        exact ⟨hw.derive, a, b, hab, mt (view_null_iff hnull (hchild a)).mp ha,
          mt (view_null_iff hnull (hchild b)).mp hb⟩
      have he : w.entry = (branch fun a => w.derive a).entry := by
        funext q
        cases q with
        | nil =>
            rw [entry_branch_nil]
            exact Option.eq_none_iff_forall_ne_some.mpr fun y hy => h.nil_branch htop hy
        | cons a q => rw [entry_branch_cons, entry_derive hw]
      rw [hw.eq_of_entry hcan he]
      exact .branch hchild

/-- Change the same entries of a view and of the trie it shows. As long as the
hidden nodes stay where they are, the entries again belong to a view. -/
theorem Shows.after_change {w w' t t' : Trie α V D} (h : Shows hides w t) (keys : Set (List α))
    (hw : ∀ k ∉ keys, w'.entry k = w.entry k) (ht : ∀ k ∉ keys, t'.entry k = t.entry k)
    (hkeys : ∀ k ∈ keys, ∃ x : Option V,
      w'.entry k = x.map .inl ∧ t'.entry k = x.map .inl)
    (hfree : ∀ k ∈ keys, t.Free k)
    (hstay : ∀ q d u, w.entry q = some (.inr d) → NodeAt t q u → hides d u → NodeAt t' q u) :
    Shows hides w' t' where
  value q v hq := by
    by_cases hk : q ∈ keys
    · obtain ⟨x, hwq, htq⟩ := hkeys q hk
      rw [htq, ← hwq, hq]
    · rw [hw q hk] at hq
      rw [ht q hk]
      exact h.value q v hq
  stub q d hq := by
    by_cases hk : q ∈ keys
    · obtain ⟨x, hwq, _⟩ := hkeys q hk
      rw [hq] at hwq
      cases x <;> simp at hwq
    · rw [hw q hk] at hq
      obtain ⟨u, hu, hd⟩ := h.stub q d hq
      exact ⟨u, hstay q d u hq hu hd, hd⟩
  covers k x hk := by
    by_cases hkeys' : k ∈ keys
    · obtain ⟨y, hwk, htk⟩ := hkeys k hkeys'
      exact ⟨k, x, List.prefix_refl k, by rw [hwk, ← htk, hk]⟩
    · rw [ht k hkeys'] at hk
      obtain ⟨q, y, hq, hy⟩ := h.covers k x hk
      refine ⟨q, y, hq, ?_⟩
      rw [hw q, hy]
      -- A changed key in front of an entry would be that entry.
      intro hmem
      exact hkeys' ((hfree q hmem k x hk (.inr hq)).1 ▸ hmem)

end Views

end

end Radix.Trie
