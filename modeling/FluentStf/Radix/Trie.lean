import Mathlib.Data.List.Basic
import Mathlib.Data.List.Infix
import Mathlib.Logic.Function.Basic

/-! Path-compressed tries over an arbitrary alphabet. A subtrie may be replaced
by a stub which stands for it without showing its contents. The contents of a
trie are its entries: values at the ends of leaves and stubs at the positions
of the hidden subtries. A trie in canonical form is determined by its entries. -/
namespace Radix

variable {α V D : Type*}

/-- An absent child of a branch is the null trie. -/
inductive Trie (α V D : Type*) where
  | null
  | leaf (path : List α) (value : V)
  | ext (path : List α) (child : Trie α V D)
  | branch (children : α → Trie α V D)
  | stub (digest : D)

namespace Trie

section Shape

/-- Put a path above a trie. Leaves and extensions absorb it into their own. -/
def graft : List α → Trie α V D → Trie α V D
  | [], t => t
  | _, null => null
  | p, leaf q v => leaf (p ++ q) v
  | p, ext q c => ext (p ++ q) c
  | p, t => ext p t

@[simp] theorem graft_nil (t : Trie α V D) : graft [] t = t := by
  cases t <;> rfl

@[simp] theorem graft_null (p : List α) : graft p (null : Trie α V D) = null := by
  cases p <;> rfl

@[simp] theorem graft_leaf (p q : List α) (v : V) :
    graft p (leaf q v : Trie α V D) = leaf (p ++ q) v := by
  cases p <;> rfl

@[simp] theorem graft_ext (p q : List α) (c : Trie α V D) :
    graft p (ext q c) = ext (p ++ q) c := by
  cases p <;> rfl

/-- The tries an extension may lead to. -/
def IsNode : Trie α V D → Prop
  | branch _ => True
  | stub _ => True
  | _ => False

theorem isNode_branch (f : α → Trie α V D) : (branch f).IsNode := trivial

theorem isNode_stub (d : D) : (stub d : Trie α V D).IsNode := trivial

variable {f : α → Trie α V D} {t : Trie α V D}

theorem graft_node {p : List α} (hp : p ≠ []) (ht : t.IsNode) :
    graft p t = ext p t := by
  cases p with
  | nil => exact (hp rfl).elim
  | cons a p =>
      cases t with
      | branch f => rfl
      | stub d => rfl
      | _ => exact False.elim ht

theorem graft_append (p q : List α) (t : Trie α V D) :
    graft (p ++ q) t = graft p (graft q t) := by
  cases p with
  | nil => simp
  | cons a p =>
      cases q with
      | nil => simp
      | cons b q =>
          cases t <;> simp [graft]

@[simp] theorem graft_eq_null {p : List α} : graft p t = null ↔ t = null := by
  cases p with
  | nil => simp
  | cons a p => cases t <;> simp [graft]

/-- Extensions are not empty and lead to branches or stubs; a branch has at
least two children. -/
def Canonical : Trie α V D → Prop
  | null => True
  | leaf _ _ => True
  | ext p c => p ≠ [] ∧ c.IsNode ∧ c.Canonical
  | branch f => (∀ a, (f a).Canonical) ∧ ∃ a b, a ≠ b ∧ f a ≠ null ∧ f b ≠ null
  | stub _ => True

theorem canonical_leaf (p : List α) (v : V) : (leaf p v : Trie α V D).Canonical := trivial

theorem Canonical.graft (ht : t.Canonical) (p : List α) :
    (graft p t).Canonical := by
  cases p with
  | nil => simpa using ht
  | cons a p =>
      cases t with
      | null => trivial
      | leaf q v => trivial
      | ext q c => exact ⟨by simp, ht.2.1, ht.2.2⟩
      | branch f => exact ⟨by simp, trivial, ht⟩
      | stub d => exact ⟨by simp, trivial, trivial⟩

theorem Canonical.ext_eq_graft {p : List α} {c : Trie α V D} (h : (ext p c).Canonical) :
    ext p c = Trie.graft p c :=
  (graft_node h.1 h.2.1).symm

open Classical in
/-- The branch with the given children, collapsed when at most one of them is
present. The position of that child does not matter when none is. -/
noncomputable def join (f : α → Trie α V D) : Trie α V D :=
  if h : ∃ a, ∀ b, f b ≠ null → b = a then graft [h.choose] (f h.choose) else branch f

theorem join_single {a : α} (h : ∀ b, f b ≠ null → b = a) :
    join f = graft [a] (f a) := by
  have hex : ∃ a, ∀ b, f b ≠ null → b = a := ⟨a, h⟩
  rw [join, dif_pos hex]
  by_cases ha : f a = null
  · have hc : f hex.choose = null := by
      by_contra hne
      exact hne (h _ hne ▸ ha)
    rw [ha, hc, graft_null, graft_null]
  · rw [← hex.choose_spec a ha]

theorem join_branch {a b : α} (hab : a ≠ b) (ha : f a ≠ null) (hb : f b ≠ null) :
    join f = branch f := by
  rw [join, dif_neg]
  rintro ⟨c, hc⟩
  exact hab ((hc a ha).trans (hc b hb).symm)

theorem join_cases [Nonempty α] (f : α → Trie α V D) :
    (∃ a, (∀ b, f b ≠ null → b = a) ∧ join f = graft [a] (f a)) ∨
      (∃ a b, a ≠ b ∧ f a ≠ null ∧ f b ≠ null) ∧ join f = branch f := by
  by_cases h : ∃ a, ∀ b, f b ≠ null → b = a
  · obtain ⟨a, ha⟩ := h
    exact .inl ⟨a, ha, join_single ha⟩
  · have two : ∃ a b, a ≠ b ∧ f a ≠ null ∧ f b ≠ null := by
      push Not at h
      obtain ⟨a, ha, _⟩ := h (Classical.arbitrary α)
      obtain ⟨b, hb, hba⟩ := h a
      exact ⟨a, b, fun hab => hba hab.symm, ha, hb⟩
    obtain ⟨a, b, hab, ha, hb⟩ := two
    exact .inr ⟨⟨a, b, hab, ha, hb⟩, join_branch hab ha hb⟩

theorem canonical_join [Nonempty α] (h : ∀ a, (f a).Canonical) :
    (join f).Canonical := by
  rcases join_cases f with ⟨a, _, he⟩ | ⟨two, he⟩
  · rw [he]
    exact (h a).graft [a]
  · rw [he]
    exact ⟨h, two⟩

end Shape

section Contents

variable [DecidableEq α]

/-- The value or the stub at exactly this position. -/
def entry : Trie α V D → List α → Option (V ⊕ D)
  | null, _ => none
  | leaf path value, key => if key = path then some (.inl value) else none
  | ext path child, key => (key.dropPrefix? path).bind child.entry
  | branch children, key => match key with
    | [] => none
    | a :: tail => (children a).entry tail
  | stub digest, key => if key = [] then some (.inr digest) else none

theorem dropPrefix?_eq_some {k p t : List α} : k.dropPrefix? p = some t ↔ k = p ++ t := by
  rw [List.dropPrefix?_eq_some_iff]
  constructor
  · rintro ⟨q, rfl, hq⟩
    rw [eq_of_beq hq]
  · rintro rfl
    exact ⟨p, rfl, by simp⟩

@[simp] theorem dropPrefix?_append (p t : List α) : (p ++ t).dropPrefix? p = some t :=
  dropPrefix?_eq_some.mpr rfl

theorem dropPrefix?_eq_none {k p : List α} (h : ¬p <+: k) : k.dropPrefix? p = none := by
  cases he : k.dropPrefix? p with
  | none => rfl
  | some t => exact (h ⟨t, (dropPrefix?_eq_some.mp he).symm⟩).elim

@[simp] theorem entry_null (k : List α) : (null : Trie α V D).entry k = none := rfl

example : (leaf [0] true : Trie Nat Bool Unit).entry [0] = some (.inl true) := by simp [entry]

@[simp] theorem entry_ext_append (p k : List α) (c : Trie α V D) :
    (ext p c).entry (p ++ k) = c.entry k := by
  simp [entry]

theorem entry_ext_none {p k : List α} (h : ¬p <+: k) (c : Trie α V D) :
    (ext p c).entry k = none := by
  simp [entry, dropPrefix?_eq_none h]

theorem entry_leaf_eq_some {p q : List α} {v : V} {x : V ⊕ D} :
    (leaf p v : Trie α V D).entry q = some x ↔ q = p ∧ x = .inl v := by
  by_cases hq : q = p
  · simp [entry, hq, eq_comm]
  · simp [entry, hq]

theorem entry_stub_eq_some {q : List α} {d : D} {x : V ⊕ D} :
    (stub d : Trie α V D).entry q = some x ↔ q = [] ∧ x = .inr d := by
  by_cases hq : q = []
  · simp [entry, hq, eq_comm]
  · simp [entry, hq]

theorem entry_ext_eq_some {p q : List α} {c : Trie α V D} {x : V ⊕ D} :
    (ext p c).entry q = some x ↔ ∃ r, q = p ++ r ∧ c.entry r = some x := by
  simp only [entry, Option.bind_eq_some_iff, dropPrefix?_eq_some]

@[simp] theorem entry_branch_cons (f : α → Trie α V D) (a : α) (k : List α) :
    (branch f).entry (a :: k) = (f a).entry k := rfl

@[simp] theorem entry_branch_nil (f : α → Trie α V D) : (branch f).entry [] = none := rfl

/-- Read the value of a key. Reading stops at the first stub on the way. -/
def lookup : Trie α V D → List α → Except D (Option V)
  | null, _ => .ok none
  | leaf path value, key => if path = key then .ok (some value) else .ok none
  | ext path child, key => match key.dropPrefix? path with
    | some tail => child.lookup tail
    | none => .ok none
  | branch children, key => match key with
    | [] => .ok none
    | a :: tail => (children a).lookup tail
  | stub digest, _ => .error digest

variable {t : Trie α V D}

theorem entry_graft_node (ht : t.IsNode) (p k : List α) :
    (graft p t).entry k = (k.dropPrefix? p).bind t.entry := by
  cases p with
  | nil => simp
  | cons a p =>
      rw [graft_node (List.cons_ne_nil a p) ht]
      rfl

theorem entry_graft (p k : List α) (t : Trie α V D) :
    (graft p t).entry k = (k.dropPrefix? p).bind t.entry := by
  cases t with
  | null => cases k.dropPrefix? p <;> simp
  | branch f => exact entry_graft_node (isNode_branch f) p k
  | stub d => exact entry_graft_node (isNode_stub d) p k
  | leaf q v =>
      rw [graft_leaf]
      by_cases hk : p <+: k
      · obtain ⟨s, rfl⟩ := hk
        simp [entry]
      · rw [dropPrefix?_eq_none hk, Option.bind_none, entry, if_neg]
        rintro rfl
        exact hk (List.prefix_append p q)
  | ext q c =>
      rw [graft_ext]
      by_cases hk : p <+: k
      · obtain ⟨s, rfl⟩ := hk
        rw [dropPrefix?_append, Option.bind_some]
        by_cases hq : q <+: s
        · obtain ⟨r, rfl⟩ := hq
          rw [← List.append_assoc, entry_ext_append, entry_ext_append]
        · rw [entry_ext_none hq, entry_ext_none]
          rwa [List.prefix_append_right_inj]
      · rw [dropPrefix?_eq_none hk, Option.bind_none]
        exact entry_ext_none (fun h => hk ((List.prefix_append p q).trans h)) c

@[simp] theorem entry_graft_append (p k : List α) (t : Trie α V D) :
    (graft p t).entry (p ++ k) = t.entry k := by
  simp [entry_graft]

/-- Reading meets no obstacle when no stub lies on the way. -/
theorem lookup_eq_entry {k : List α} (h : ∀ q d, q <+: k → t.entry q ≠ some (.inr d)) :
    t.lookup k = .ok ((t.entry k).bind Sum.getLeft?) := by
  induction t generalizing k with
  | null => rfl
  | stub d => exact (h [] d List.nil_prefix (by simp [entry])).elim
  | leaf p v =>
      by_cases hk : k = p
      · simp [lookup, entry, hk]
      · simp [lookup, entry, hk, Ne.symm hk]
  | ext p c ih =>
      by_cases hk : p <+: k
      · obtain ⟨s, rfl⟩ := hk
        simp only [lookup, dropPrefix?_append, entry_ext_append]
        apply ih
        intro q d hq
        rw [← entry_ext_append p]
        exact h (p ++ q) d ((List.prefix_append_right_inj p).mpr hq)
      · simp only [lookup, dropPrefix?_eq_none hk, entry_ext_none hk]
        rfl
  | branch f ih =>
      cases k with
      | nil => rfl
      | cons a k =>
          simp only [lookup, entry_branch_cons]
          exact ih a fun q d hq => h (a :: q) d (by simpa using hq)

theorem entry_graft_none {p k : List α} (h : ¬p <+: k) (t : Trie α V D) :
    (graft p t).entry k = none := by
  rw [entry_graft, dropPrefix?_eq_none h, Option.bind_none]

/-- The trie of everything below one letter. -/
def derive (a : α) : Trie α V D → Trie α V D
  | leaf (b :: q) v => if a = b then leaf q v else null
  | ext (b :: q) c => if a = b then graft q c else null
  | branch f => f a
  | _ => null

theorem Canonical.derive (ht : t.Canonical) (a : α) :
    (t.derive a).Canonical := by
  cases t with
  | null => trivial
  | stub d => trivial
  | branch f => exact ht.1 a
  | leaf p v =>
      cases p with
      | nil => trivial
      | cons b q =>
          rw [Trie.derive]
          split <;> trivial
  | ext p c =>
      cases p with
      | nil => trivial
      | cons b q =>
          rw [Trie.derive]
          split
          · exact ht.2.2.graft q
          · trivial

theorem entry_derive (ht : t.Canonical) (a : α) (k : List α) :
    (t.derive a).entry k = t.entry (a :: k) := by
  cases t with
  | null => rfl
  | stub d => simp [Trie.derive, entry]
  | branch f => rfl
  | leaf p v =>
      cases p with
      | nil => simp [Trie.derive, entry]
      | cons b q =>
          by_cases hab : a = b
          · simp [Trie.derive, entry, hab]
          · simp [Trie.derive, entry, hab]
  | ext p c =>
      cases p with
      | nil => exact (ht.1 rfl).elim
      | cons b q =>
          by_cases hab : a = b
          · subst hab
            rw [Trie.derive, if_pos rfl, entry_graft, entry]
            simp [List.dropPrefix?]
          · rw [Trie.derive, if_neg hab, entry_ext_none, entry_null]
            rintro ⟨s, hs⟩
            exact hab (List.cons.inj hs).1.symm

theorem derive_graft_cons (ht : t.Canonical) (a b : α) (p : List α) :
    (graft (b :: p) t).derive a = if a = b then graft p t else null := by
  cases t with
  | null => simp [Trie.derive]
  | leaf q v => simp [Trie.derive]
  | ext q c =>
      rw [graft_ext, graft_ext, List.cons_append, Trie.derive,
        graft_node (by simp [ht.1]) ht.2.1]
  | branch f => rfl
  | stub d => rfl

theorem entry_join_nil [Nonempty α] (f : α → Trie α V D) : (join f).entry [] = none := by
  rcases join_cases f with ⟨a, _, he⟩ | ⟨_, he⟩
  · rw [he]
    exact entry_graft_none (by simp) _
  · rw [he, entry_branch_nil]

theorem entry_join_cons [Nonempty α] (f : α → Trie α V D) (a : α) (k : List α) :
    (join f).entry (a :: k) = (f a).entry k := by
  rcases join_cases f with ⟨b, hb, he⟩ | ⟨_, he⟩
  · rw [he]
    by_cases hab : a = b
    · subst hab
      exact entry_graft_append [a] k (f a)
    · have hnull : f a = null := by
        by_contra hne
        exact hab (hb a hne)
      rw [hnull, entry_null, entry_graft_none]
      rintro ⟨s, hs⟩
      exact hab (List.cons.inj hs).1.symm
  · rw [he, entry_branch_cons]

/-- A canonical trie is put together from what lies below each letter. -/
theorem Canonical.eq_join_derive [Nonempty α] (ht : t.Canonical) (hnil : t.entry [] = none) :
    t = join (fun a => t.derive a) := by
  -- Below the first letter of a path there is exactly one child.
  have single : ∀ (b : α) (q : List α) (c : Trie α V D), c.Canonical →
      Trie.graft (b :: q) c = join (fun a => (Trie.graft (b :: q) c).derive a) := by
    intro b q c hc
    rw [join_single (a := b), derive_graft_cons hc, if_pos rfl, ← graft_append]
    · rfl
    · intro a ha
      rw [derive_graft_cons hc] at ha
      by_contra hab
      exact ha (if_neg hab)
  cases t with
  | null =>
      have hjoin := join_single (f := fun a => (null : Trie α V D).derive a)
        (a := Classical.arbitrary α) (fun b hb => False.elim (hb rfl))
      exact hjoin.symm
  | stub d => simp [entry] at hnil
  | branch f =>
      obtain ⟨a, b, hab, ha, hb⟩ := ht.2
      exact (join_branch hab ha hb).symm
  | leaf p v =>
      cases p with
      | nil => simp [entry] at hnil
      | cons b q => simpa using single b q (leaf [] v) trivial
  | ext p c =>
      cases p with
      | nil => exact (ht.1 rfl).elim
      | cons b q =>
          rw [ht.ext_eq_graft]
          exact single b q c ht.2.2

theorem Canonical.exists_entry (ht : t.Canonical) (hne : t ≠ null) :
    ∃ k x, t.entry k = some x := by
  induction t with
  | null => exact (hne rfl).elim
  | leaf p v => exact ⟨p, .inl v, by simp [entry]⟩
  | stub d => exact ⟨[], .inr d, by simp [entry]⟩
  | ext p c ih =>
      have hc : c ≠ null := by
        rintro rfl
        exact ht.2.1
      obtain ⟨k, x, hk⟩ := ih ht.2.2 hc
      exact ⟨p ++ k, x, by simpa using hk⟩
  | branch f ih =>
      obtain ⟨a, _, _, ha, _⟩ := ht.2
      obtain ⟨k, x, hk⟩ := ih a (ht.1 a) ha
      exact ⟨a :: k, x, hk⟩

theorem entry_nil_inl (ht : t.Canonical) {v : V} (h : t.entry [] = some (.inl v)) :
    t = leaf [] v := by
  cases t with
  | null => simp at h
  | stub d => simp [entry] at h
  | branch f => simp at h
  | leaf p w =>
      obtain ⟨rfl, he⟩ := entry_leaf_eq_some.mp h
      cases he
      rfl
  | ext p c =>
      rw [entry_ext_none] at h
      · cases h
      · simp [ht.1]

theorem entry_nil_inr (ht : t.Canonical) {d : D} (h : t.entry [] = some (.inr d)) : t = stub d := by
  cases t with
  | null => simp at h
  | stub d => simpa [entry] using h
  | branch f => simp at h
  | leaf p w => cases (entry_leaf_eq_some.mp h).2
  | ext p c =>
      rw [entry_ext_none] at h
      · cases h
      · simp [ht.1]

/-- Equal entries, read along one more letter, of a canonical trie. -/
private theorem entry_derive_congr {s : Trie α V D} (hs : s.Canonical) (ht : t.Canonical)
    (he : s.entry = t.entry) (a : α) : (s.derive a).entry = (t.derive a).entry := by
  funext k
  rw [entry_derive hs, entry_derive ht, he]

/-- Canonical tries with the same entries are equal. -/
theorem Canonical.eq_of_entry [Nonempty α] {s : Trie α V D} (hs : s.Canonical) (ht : t.Canonical)
    (he : s.entry = t.entry) : s = t := by
  have null_case : ∀ {t : Trie α V D}, t.Canonical → (null : Trie α V D).entry = t.entry →
      null = t := by
    intro t ht he
    by_contra hne
    obtain ⟨k, x, hk⟩ := ht.exists_entry (Ne.symm hne)
    simp [← he] at hk
  -- A path above a trie is removed letter by letter, on both sides.
  have graft_case : ∀ (c : Trie α V D), c.Canonical →
      (∀ {t : Trie α V D}, t.Canonical → c.entry = t.entry → c = t) →
      ∀ (p : List α) {t : Trie α V D}, t.Canonical → (Trie.graft p c).entry = t.entry →
        Trie.graft p c = t := by
    intro c hc ih p
    induction p with
    | nil =>
        intro t ht he
        exact (graft_nil c).trans (ih ht (by rwa [graft_nil] at he))
    | cons b p ihp =>
        intro t ht he
        have hs := hc.graft (b :: p)
        have hnil : (Trie.graft (b :: p) c).entry [] = none := entry_graft_none (by simp) c
        rw [hs.eq_join_derive hnil, ht.eq_join_derive (he ▸ hnil)]
        congr 1
        funext a
        have hd := entry_derive_congr hs ht he a
        rw [derive_graft_cons hc] at hd ⊢
        by_cases hab : a = b
        · rw [if_pos hab] at hd ⊢
          exact ihp (ht.derive a) hd
        · rw [if_neg hab] at hd ⊢
          exact null_case (ht.derive a) hd
  induction s generalizing t with
  | null => exact null_case ht he
  | stub d => exact (entry_nil_inr ht (by rw [← he]; simp [entry])).symm
  | leaf p v =>
      have hp := graft_case (leaf [] v) trivial
        (fun ht he => (entry_nil_inl ht (by rw [← he]; simp [entry])).symm) p ht
      simp only [graft_leaf, List.append_nil] at hp
      exact hp he
  | ext p c ih =>
      rw [hs.ext_eq_graft] at he ⊢
      exact graft_case c hs.2.2 (fun ht he => ih hs.2.2 ht he) p ht he
  | branch f ih =>
      have hnil : t.entry [] = none := by rw [← he, entry_branch_nil]
      rw [hs.eq_join_derive (entry_branch_nil f), ht.eq_join_derive hnil]
      congr 1
      funext a
      exact ih a (hs.1 a) (ht.derive a) (entry_derive_congr hs ht he a)

end Contents

end Trie

end Radix
