import FluentStf.Radix.Position

/-! Writing the keys of one length in a trie with stubs. A key can be written if it can be
read, and writing one key does not change what is read at another one. So the order in which
keys are written does not matter, also where one of them cannot be written. -/
namespace Radix

variable {α V D : Type*} [DecidableEq α]

namespace Trie

/-- Set the value of a key, or remove the key. -/
noncomputable def put (t : Trie α V D) (k : List α) : Option V → Option (Trie α V D)
  | some v => t.insert v k
  | none => t.delete k

theorem put_spec [Nonempty α] {t t' : Trie α V D} {k : List α} {x : Option V} (ht : t.Canonical)
    (h : t.put k x = some t') :
    t'.Canonical ∧ t'.entry = Function.update t.entry k (x.map .inl) := by
  cases x with
  | none => exact delete_spec ht h
  | some v =>
      obtain ⟨hcan, _, hentry⟩ := insert_spec ht h
      exact ⟨hcan, hentry⟩

theorem put_of_free {t : Trie α V D} {k : List α} (ht : t.Canonical) (hfree : t.Free k)
    (x : Option V) : ∃ t', t.put k x = some t' := by
  cases x with
  | none => exact delete_of_free ht hfree
  | some v => exact insert_of_free v ht hfree

theorem lookup_of_put {t t' : Trie α V D} {k : List α} {x : Option V} (h : t.put k x = some t') :
    ∃ y, t.lookup k = .ok y := by
  cases x with
  | none => exact lookup_of_delete h
  | some v => exact lookup_of_insert h

/-- Reading stops at a stub on the way. -/
theorem lookup_stub {t : Trie α V D} {q k : List α} {d : D} (hq : q <+: k)
    (h : t.entry q = some (.inr d)) : t.lookup k = .error d := by
  induction t generalizing q k with
  | null => cases h
  | leaf p v => cases (entry_leaf_eq_some.mp h).2
  | stub e =>
      cases (entry_stub_eq_some.mp h).2
      rfl
  | ext p c ih =>
      obtain ⟨r, rfl, hr⟩ := entry_ext_eq_some.mp h
      obtain ⟨s, rfl⟩ := hq
      rw [List.append_assoc, lookup, dropPrefix?_append]
      exact ih (List.prefix_append r s) hr
  | branch f ih =>
      cases q with
      | nil => cases h
      | cons a q =>
          obtain ⟨s, rfl⟩ := hq
          exact ih a (List.prefix_append q s) h

/-- What is read at a key depends on the entries on its way only. -/
theorem lookup_congr {s t : Trie α V D} {k : List α} (h : ∀ q, q <+: k → s.entry q = t.entry q) :
    s.lookup k = t.lookup k := by
  by_cases hstub : ∃ q d, q <+: k ∧ t.entry q = some (.inr d)
  · obtain ⟨q, d, hq, hd⟩ := hstub
    rw [lookup_stub hq hd, lookup_stub hq ((h q hq).trans hd)]
  · have hopen : ∀ q d, q <+: k → t.entry q ≠ some (.inr d) :=
      fun q d hq hd => hstub ⟨q, d, hq, hd⟩
    rw [lookup_eq_entry hopen, lookup_eq_entry fun q d hq => h q hq ▸ hopen q d hq,
      h k (List.prefix_refl k)]

/-- All values stand at one depth, and no stub below it. -/
structure Levelled (n : Nat) (t : Trie α V D) : Prop where
  canonical : t.Canonical
  value : ∀ q v, t.entry q = some (.inl v) → q.length = n
  stub : ∀ q d, t.entry q = some (.inr d) → q.length ≤ n

/-- Cutting off subtries keeps the depth of the rest. -/
theorem levelled_of_view {hides : D → Trie α V D → Prop} (hnull : ∀ d, ¬hides d null)
    {w t : Trie α V D} (h : View hides w t) (ht : t.Canonical) {n : Nat}
    (hlength : ∀ q x, t.entry q = some x → q.length = n) : Levelled n w where
  canonical := view_canonical hnull h ht
  value q v hq := hlength q _ (view_entry_inl h hq)
  stub q d hq := by
    obtain ⟨u, hu, hd⟩ := view_entry_inr h hq
    have hne : u ≠ null := by
      rintro rfl
      exact hnull d hd
    obtain ⟨k, x, hk⟩ := (nodeAt_canonical ht hu).exists_entry hne
    have hlen := hlength (q ++ k) x (by rw [hu.entry ht, hk])
    rw [List.length_append] at hlen
    omega

namespace Levelled

variable {n : Nat} {t t' : Trie α V D} {k k' : List α} {x y : Option V}

theorem stub_root (n : Nat) (d : D) : Levelled n (.stub d : Trie α V D) where
  canonical := trivial
  value q v hq := by cases (entry_stub_eq_some.mp hq).2
  stub q e hq := by simp [(entry_stub_eq_some.mp hq).1]

theorem null_root (n : Nat) : Levelled n (.null : Trie α V D) :=
  ⟨trivial, fun _ _ h => (nomatch h), fun _ _ h => (nomatch h)⟩

theorem free (h : Levelled n t) (hk : k.length = n) {z : Option V} (hread : t.lookup k = .ok z) :
    t.Free k := by
  intro q e hq hbeside
  cases e with
  | inl v =>
      have hlen : q.length = k.length := (h.value q v hq).trans hk.symm
      refine ⟨?_, v, rfl⟩
      rcases hbeside with hle | hle
      · exact hle.eq_of_length hlen
      · exact (hle.eq_of_length hlen.symm).symm
  | inr d =>
      have hle : q <+: k := by
        rcases hbeside with hle | hle
        · exact hle
        · have := h.stub q d hq
          have := hle.length_le
          rw [hle.eq_of_length (by omega)]
      rw [lookup_stub hle hq] at hread
      cases hread

/-- Keys that can be read are those that can be written. -/
theorem put_iff (h : Levelled n t) (hk : k.length = n) (x : Option V) :
    (∃ t', t.put k x = some t') ↔ ∃ z, t.lookup k = .ok z := by
  constructor
  · rintro ⟨t', ht'⟩
    exact lookup_of_put ht'
  · rintro ⟨z, hz⟩
    exact put_of_free h.canonical (h.free hk hz) x

variable [Nonempty α]

theorem put (h : Levelled n t) (hk : k.length = n) (ht' : t.put k x = some t') :
    Levelled n t' := by
  obtain ⟨hcan, hentry⟩ := put_spec h.canonical ht'
  refine ⟨hcan, fun q v hq => ?_, fun q d hq => ?_⟩
  · rw [hentry] at hq
    by_cases hqk : q = k
    · rw [hqk, hk]
    · rw [Function.update_of_ne hqk] at hq
      exact h.value q v hq
  · rw [hentry] at hq
    by_cases hqk : q = k
    · rw [hqk, hk]
    · rw [Function.update_of_ne hqk] at hq
      exact h.stub q d hq

theorem lookup_put (h : Levelled n t) (hk : k.length = n) (hk' : k'.length = n) (hne : k' ≠ k)
    (ht' : t.put k x = some t') : t'.lookup k' = t.lookup k' := by
  refine lookup_congr fun q hq => ?_
  rw [(put_spec h.canonical ht').2, Function.update_of_ne]
  rintro rfl
  exact hne (hq.eq_of_length (hk.trans hk'.symm)).symm

/-- Two keys can be written in either order. -/
theorem put_comm (h : Levelled n t) (hk : k.length = n) (hk' : k'.length = n) (hne : k ≠ k')
    (x y : Option V) :
    ((t.put k x).bind fun s => s.put k' y) = (t.put k' y).bind fun s => s.put k x := by
  -- A key that cannot be written can still not be written after the other one.
  have stays : ∀ {k k' : List α} {x y : Option V} {s : Trie α V D}, k.length = n → k'.length = n →
      k ≠ k' → t.put k' y = some s → t.put k x = none → s.put k x = none := by
    intro k k' x y s hk hk' hne hs hnone
    have hread := h.lookup_put hk' hk hne hs
    by_contra hsome
    obtain ⟨s', hs'⟩ := Option.ne_none_iff_exists'.mp hsome
    have hput := (h.put_iff hk x).mpr (hread ▸ lookup_of_put hs')
    rw [hnone] at hput
    obtain ⟨_, hput⟩ := hput
    cases hput
  cases hs : t.put k x with
  | none =>
      cases hs' : t.put k' y with
      | none => rfl
      | some s' => exact (stays hk hk' hne hs' hs).symm
  | some s =>
      cases hs' : t.put k' y with
      | none => exact stays hk' hk hne.symm hs hs'
      | some s' =>
          obtain ⟨r, hr⟩ := ((h.put hk hs).put_iff hk' y).mpr
            (h.lookup_put hk hk' hne.symm hs ▸ lookup_of_put hs')
          obtain ⟨r', hr'⟩ := ((h.put hk' hs').put_iff hk x).mpr
            (h.lookup_put hk' hk hne hs' ▸ lookup_of_put hs)
          obtain ⟨hcan, hentry⟩ := put_spec (h.put hk hs).canonical hr
          obtain ⟨hcan', hentry'⟩ := put_spec (h.put hk' hs').canonical hr'
          rw [Option.bind_some, Option.bind_some, hr, hr']
          refine congrArg some (hcan.eq_of_entry hcan' ?_)
          rw [hentry, hentry', (put_spec h.canonical hs).2, (put_spec h.canonical hs').2,
            Function.update_comm hne]

end Levelled

end Trie

end Radix
