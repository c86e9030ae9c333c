import Mathlib.Algebra.Group.Nat.Defs
import Mathlib.Data.List.Basic
import Mathlib.Data.List.Forall2
import Mathlib.Data.List.Nodup
import Mathlib.Data.Set.Function

/-! Words shared by all crates: byte strings and 32-byte words. -/
namespace FluentStf

abbrev Bytes := List UInt8

/-- A word of exactly 32 bytes. -/
structure B256 where
  bytes : Bytes
  length_eq : bytes.length = 32
deriving DecidableEq

@[ext] theorem B256.ext {a b : B256} (h : a.bytes = b.bytes) : a = b := by
  cases a
  cases b
  cases h
  rfl

/-- A number as a fixed count of bytes, most significant first. -/
def beBytes (width n : Nat) : Bytes :=
  (List.range width).map fun i => UInt8.ofNat (n / 256 ^ (width - 1 - i))

@[simp] theorem beBytes_length (width n : Nat) : (beBytes width n).length = width := by
  simp [beBytes]

theorem beBytes_succ (width n : Nat) :
    beBytes (width + 1) n = UInt8.ofNat (n / 256 ^ width) :: beBytes width n := by
  rw [beBytes, List.range_succ_eq_map, List.map_cons, List.map_map, beBytes]
  simp only [Nat.add_sub_cancel, Nat.sub_zero, List.cons.injEq, true_and]
  refine List.map_congr_left fun i hi => ?_
  have hi' := List.mem_range.mp hi
  simp only [Function.comp_apply, Nat.succ_eq_add_one]
  rw [show width - (i + 1) = width - 1 - i by omega]

/-- The bytes determine the number as far as they reach. -/
theorem beBytes_inj {width m n : Nat} (h : beBytes width m = beBytes width n) :
    m % 256 ^ width = n % 256 ^ width := by
  induction width with
  | zero => simp [Nat.mod_one]
  | succ width ih =>
      rw [beBytes_succ, beBytes_succ, List.cons.injEq] at h
      have hhead := congrArg UInt8.toNat h.1
      simp only [UInt8.toNat_ofNat', Nat.reducePow] at hhead
      rw [Nat.mod_pow_succ, Nat.mod_pow_succ, ih h.2, hhead]

def B256.zero : B256 := ⟨List.replicate 32 0, by simp⟩

/-- The word with the given value, most significant byte first. -/
def B256.ofNat (n : Nat) : B256 :=
  ⟨List.ofFn fun i : Fin 32 => UInt8.ofNat (n / 256 ^ (31 - i.val)), by simp⟩

section Lookup

variable {α β : Type*} [BEq α] [LawfulBEq α] {a : α}

theorem lookup_eq_none_of_not_mem {l : List (α × β)} (h : a ∉ l.map Prod.fst) :
    l.lookup a = none := by
  rw [List.lookup_eq_none_iff]
  intro p hp
  have hne : a ≠ p.1 := fun heq => h (List.mem_map.mpr ⟨p, hp, heq.symm⟩)
  exact bne_iff_ne.mpr hne

theorem lookup_cons_of_ne {p : α × β} (h : a ≠ p.1) (l : List (α × β)) :
    (p :: l).lookup a = l.lookup a := by
  rw [List.lookup_cons, beq_false_of_ne h]

theorem lookup_eq_some_of_mem {l : List (α × β)} (hnodup : (l.map Prod.fst).Nodup) {b : β}
    (h : (a, b) ∈ l) : l.lookup a = some b := by
  induction l with
  | nil => cases h
  | cons p l ih =>
      rw [List.map_cons, List.nodup_cons] at hnodup
      rcases List.mem_cons.mp h with rfl | h
      · exact List.lookup_cons_self
      · have hne : a ≠ p.1 := fun hsame => hnodup.1 (hsame ▸ List.mem_map_of_mem h)
        rw [lookup_cons_of_ne hne, ih hnodup.2 h]

end Lookup

section Except

variable {ε α β : Type} {f : α → Except ε β}

/-- A computation that may fail returns if both of its parts do. -/
theorem bind_eq_ok {x : Except ε α} {r : β} :
    (x >>= f) = .ok r ↔ ∃ a, x = .ok a ∧ f a = .ok r := by
  cases x with
  | error e =>
      constructor
      · intro h
        cases h
      · rintro ⟨_, h, _⟩
        cases h
  | ok a =>
      constructor
      · exact fun h => ⟨a, rfl, h⟩
      · rintro ⟨_, h, hf⟩
        cases h
        exact hf

theorem exists_of_isOk {x : Except ε α} (h : x.isOk = true) : ∃ a, x = .ok a := by
  cases x with
  | error e => cases h
  | ok a => exact ⟨a, rfl⟩

theorem bind_eq_error {x : Except ε α} {e : ε} :
    (x >>= f) = .error e ↔ x = .error e ∨ ∃ a, x = .ok a ∧ f a = .error e := by
  cases x with
  | error e' => simp [bind, Except.bind]
  | ok a => simp [bind, Except.bind]

theorem mapM_eq_ok {as : List α} {bs : List β} :
    as.mapM f = .ok bs ↔ List.Forall₂ (fun a b => f a = .ok b) as bs := by
  induction as generalizing bs with
  | nil =>
      rw [List.mapM_nil, List.forall₂_nil_left_iff]
      simp [pure, Except.pure, eq_comm]
  | cons a as ih =>
      rw [List.mapM_cons, bind_eq_ok, List.forall₂_cons_left_iff]
      simp only [bind_eq_ok, ih, pure, Except.pure, Except.ok.injEq]
      constructor
      · rintro ⟨b, hb, bs', hbs, rfl⟩
        exact ⟨b, bs', hb, hbs, rfl⟩
      · rintro ⟨b, bs', hb, hbs, rfl⟩
        exact ⟨b, hb, bs', hbs, rfl⟩

/-- The first failure ends the loop. -/
theorem mapM_eq_error {as : List α} {e : ε} :
    as.mapM f = .error e ↔ ∃ before a after, as = before ++ a :: after ∧
      (∀ b ∈ before, ∃ c, f b = .ok c) ∧ f a = .error e := by
  induction as with
  | nil => simp [pure, Except.pure]
  | cons a as ih =>
      rw [List.mapM_cons, bind_eq_error]
      constructor
      · rintro (hfirst | ⟨c, hc, hrest⟩)
        · exact ⟨[], a, as, rfl, by simp, hfirst⟩
        · rw [bind_eq_error] at hrest
          obtain hrest | ⟨_, _, hpure⟩ := hrest
          · obtain ⟨before, b, after, rfl, hbefore, hb⟩ := ih.mp hrest
            refine ⟨a :: before, b, after, rfl, ?_, hb⟩
            intro x hx
            rcases List.mem_cons.mp hx with rfl | hx
            · exact ⟨c, hc⟩
            · exact hbefore x hx
          · cases hpure
      · rintro ⟨before, b, after, has, hbefore, hb⟩
        cases before with
        | nil =>
            obtain ⟨rfl, rfl⟩ := List.cons.inj has
            exact .inl hb
        | cons b' before =>
            obtain ⟨rfl, rfl⟩ := List.cons.inj has
            obtain ⟨c, hc⟩ := hbefore a (.head _)
            refine .inr ⟨c, hc, ?_⟩
            rw [bind_eq_error]
            exact .inl (ih.mpr ⟨before, b, after, rfl, fun x hx => hbefore x (.tail _ hx), hb⟩)

end Except

/-- A hash function that is known on finitely many inputs. -/
def tableHash (table : List (Bytes × B256)) (input : Bytes) : B256 :=
  (table.lookup input).getD B256.zero

theorem mem_of_tableHash {table : List (Bytes × B256)} {input : Bytes}
    (h : input ∈ table.map Prod.fst) : (input, tableHash table input) ∈ table := by
  induction table with
  | nil => simp at h
  | cons row table ih =>
      obtain ⟨known, digest⟩ := row
      by_cases hknown : input = known
      · simp [tableHash, hknown]
      · have hrest : tableHash ((known, digest) :: table) input = tableHash table input := by
          rw [tableHash, tableHash, lookup_cons_of_ne hknown]
        rw [hrest]
        exact .tail _ (ih (by simpa [hknown] using h))

/-- A table without repeated digests has no collisions on its inputs. -/
theorem injOn_tableHash {table : List (Bytes × B256)} (hdistinct : (table.map Prod.snd).Nodup)
    {inputs : List Bytes} (hinputs : ∀ input ∈ inputs, input ∈ table.map Prod.fst) :
    Set.InjOn (tableHash table) {input | input ∈ inputs} := by
  intro a ha b hb hab
  have hpair := List.inj_on_of_nodup_map hdistinct (mem_of_tableHash (hinputs a ha))
    (mem_of_tableHash (hinputs b hb)) hab
  exact congrArg Prod.fst hpair

/-- Without collisions the digests of a list determine it. -/
theorem map_inj_of_injOn {α β : Type*} {f : α → β} {xs ys : List α}
    (hinj : Set.InjOn f {x | x ∈ xs ++ ys}) (h : xs.map f = ys.map f) : xs = ys := by
  induction xs generalizing ys with
  | nil => exact (List.map_eq_nil_iff.mp h.symm).symm
  | cons x xs ih =>
      cases ys with
      | nil => cases h
      | cons y ys =>
          obtain ⟨hhead, htail⟩ := List.cons.inj h
          have hxy : x = y := hinj (by simp) (by simp) hhead
          have hrest : xs = ys := by
            refine ih (hinj.mono fun z hz => ?_) htail
            simp only [Set.mem_ofPred_eq, List.mem_append, List.mem_cons] at hz ⊢
            exact hz.imp .inr .inr
          rw [hxy, hrest]

end FluentStf
