import FluentStf.Runs
import Mathlib.Algebra.Group.Nat.Defs
import Mathlib.Data.List.Nodup
import Mathlib.Order.Lattice

/-! The allocator of nonces, used by any number of tasks at once. Allocating and releasing
are one atomic step each. A resync holds a lock, but only against other resyncs: it reads the
counter and writes it in two steps, and allocations may fall between them. -/
namespace FluentStf.NonceAllocator

variable {Task : Type}

/-- A nonce that was allocated and not released. -/
structure Grant (Task : Type) where
  task : Task
  nonce : Nat
  /-- A transaction with this nonce was sent. -/
  used : Bool
deriving DecidableEq

/-- How far the resync that holds the lock is. -/
inductive Resync where
  | locked
  | counted (pending : Nat)
  /-- The counter is to be set to `new`. -/
  | loaded (pending new : Nat)
deriving DecidableEq

/-- The counter and the lock, with the nonces that are out beside them. -/
structure Allocator (Task : Type) where
  /-- An `AtomicU64`. -/
  next : Nat
  grants : List (Grant Task)
  /-- The holder of the lock. -/
  resync : Option (Task × Resync)
deriving DecidableEq

/-- The atomic steps. -/
inductive Event (Task : Type) where
  | allocate (task : Task)
  /-- A transaction with this nonce is sent. -/
  | broadcast (task : Task) (nonce : Nat)
  | release (task : Task) (nonce : Nat)
  | lock (task : Task)
  /-- The answer of the node to a resync, if there is one. -/
  | count (task : Task) (pending : Option Nat)
  | load (task : Task)
  | store (task : Task)
deriving DecidableEq

def bootstrap (pending : Nat) (storedFloor : Option Nat) : Allocator Task :=
  ⟨max pending (storedFloor.getD 0), [], none⟩

namespace Allocator

variable [DecidableEq Task]

/-- A task releases only what it was given and has not used. The counter wraps around, and a
release takes it back only if it is right above the nonce. -/
def step (s : Allocator Task) : Event Task → Option (Allocator Task)
  | .allocate task =>
      some { s with next := (s.next + 1) % 2 ^ 64, grants := ⟨task, s.next, false⟩ :: s.grants }
  | .broadcast task nonce =>
      if ⟨task, nonce, false⟩ ∈ s.grants then
        some { s with grants := ⟨task, nonce, true⟩ :: s.grants.erase ⟨task, nonce, false⟩ }
      else none
  | .release task nonce =>
      if ⟨task, nonce, false⟩ ∈ s.grants then
        some { s with
          next := if s.next = (nonce + 1) % 2 ^ 64 then nonce else s.next
          grants := s.grants.erase ⟨task, nonce, false⟩ }
      else none
  | .lock task => if s.resync = none then some { s with resync := some (task, .locked) } else none
  | .count task pending =>
      if s.resync = some (task, .locked) then
        match pending with
        | none => some { s with resync := none }
        | some pending =>
            if pending < 2 ^ 64 then some { s with resync := some (task, .counted pending) }
            else none
      else none
  | .load task =>
      match s.resync with
      | some (holder, .counted pending) =>
          if holder = task then
            let new := max pending s.next
            some { s with
              resync := if new ≠ s.next then some (task, .loaded pending new) else none }
          else none
      | _ => none
  | .store task =>
      match s.resync with
      | some (holder, .loaded _ new) =>
          if holder = task then some { s with next := new, resync := none } else none
      | _ => none

/-- No nonce is out twice. -/
def Distinct (s : Allocator Task) : Prop := (s.grants.map Grant.nonce).Nodup

/-- The number of pending transactions that a resync read, if it completes with this step. -/
def completes (s : Allocator Task) (event : Event Task) : Option Nat :=
  match s.resync, event with
  | some (holder, .counted pending), .load task =>
      if holder = task ∧ pending ≤ s.next then some pending else none
  | some (holder, .loaded pending _), .store task =>
      if holder = task then some pending else none
  | _, _ => none

/-- The counter does not wrap around, and a resync sets it above all nonces that are out. -/
def careful (s : Allocator Task) : Event Task → Bool
  | .allocate _ => decide (s.next + 1 < 2 ^ 64)
  | .store _ =>
      match s.resync with
      | some (_, .loaded _ new) => s.grants.all fun grant => grant.nonce < new
      | _ => true
  | _ => true

def carefulStep (s : Allocator Task) (event : Event Task) : Option (Allocator Task) :=
  if s.careful event then s.step event else none

/-- Any interleaving of the steps of all tasks. -/
def Runs (s : Allocator Task) (events : List (Event Task)) (t : Allocator Task) : Prop :=
  Run (fun s event t => s.step event = some t) s events t

/-- An interleaving of careful steps. -/
def RunsCarefully (s : Allocator Task) (events : List (Event Task)) (t : Allocator Task) : Prop :=
  Run (fun s event t => s.carefulStep event = some t) s events t

/-- All that a step can do. -/
inductive Takes (s : Allocator Task) : Event Task → Allocator Task → Prop
  | allocate (task : Task) :
      Takes s (.allocate task)
        { s with next := (s.next + 1) % 2 ^ 64, grants := ⟨task, s.next, false⟩ :: s.grants }
  | broadcast {task : Task} {nonce : Nat} (hgrant : ⟨task, nonce, false⟩ ∈ s.grants) :
      Takes s (.broadcast task nonce)
        { s with grants := ⟨task, nonce, true⟩ :: s.grants.erase ⟨task, nonce, false⟩ }
  /-- The released nonce can be allocated again. -/
  | reclaim {task : Task} {nonce : Nat} (hgrant : ⟨task, nonce, false⟩ ∈ s.grants)
      (hnext : s.next = (nonce + 1) % 2 ^ 64) :
      Takes s (.release task nonce)
        { s with next := nonce, grants := s.grants.erase ⟨task, nonce, false⟩ }
  /-- The released nonce is left out. -/
  | abandon {task : Task} {nonce : Nat} (hgrant : ⟨task, nonce, false⟩ ∈ s.grants)
      (hnext : s.next ≠ (nonce + 1) % 2 ^ 64) :
      Takes s (.release task nonce) { s with grants := s.grants.erase ⟨task, nonce, false⟩ }
  | lock (task : Task) : Takes s (.lock task) { s with resync := some (task, .locked) }
  | unanswered (task : Task) : Takes s (.count task none) { s with resync := none }
  | counted {task : Task} {pending : Nat} (hpending : pending < 2 ^ 64) :
      Takes s (.count task (some pending)) { s with resync := some (task, .counted pending) }
  /-- The counter is up to date and the resync is done. -/
  | current {task : Task} {pending : Nat} (hresync : s.resync = some (task, .counted pending))
      (hle : pending ≤ s.next) : Takes s (.load task) { s with resync := none }
  | behind {task : Task} {pending : Nat} (hresync : s.resync = some (task, .counted pending))
      (hlt : s.next < pending) :
      Takes s (.load task) { s with resync := some (task, .loaded pending pending) }
  | store {task : Task} {pending new : Nat}
      (hresync : s.resync = some (task, .loaded pending new)) :
      Takes s (.store task) { s with next := new, resync := none }

variable {s t : Allocator Task} {event : Event Task}

theorem takes_of_step (h : s.step event = some t) : s.Takes event t := by
  cases event with
  | allocate task =>
      cases h
      exact .allocate task
  | broadcast task nonce =>
      simp only [step] at h
      split_ifs at h with hgrant
      cases h
      exact .broadcast hgrant
  | release task nonce =>
      simp only [step] at h
      split_ifs at h with hgrant hnext
      · cases h
        exact .reclaim hgrant hnext
      · cases h
        exact .abandon hgrant hnext
  | lock task =>
      simp only [step] at h
      split_ifs at h
      cases h
      exact .lock task
  | count task pending =>
      simp only [step] at h
      split_ifs at h
      cases pending with
      | none =>
          cases h
          exact .unanswered task
      | some pending =>
          simp only at h
          split_ifs at h with hpending
          cases h
          exact .counted hpending
  | load task =>
      simp only [step] at h
      split at h
      · next holder pending hresync =>
          split_ifs at h with hholder hnew
          · cases h
            subst hholder
            have hmax : max pending s.next = pending := by omega
            rw [hmax]
            exact .behind hresync (by omega)
          · cases h
            subst hholder
            exact .current hresync (by omega)
      · cases h
  | store task =>
      simp only [step] at h
      split at h
      · next holder pending new hresync =>
          split_ifs at h with hholder
          cases h
          subst hholder
          exact .store hresync
      · cases h

/-- What the values of a resync are, wherever it is. -/
def Resync.Ranged : Resync → Prop
  | .locked => True
  | .counted pending => pending < 2 ^ 64
  | .loaded pending new => pending ≤ new ∧ new < 2 ^ 64

/-- All numbers are of type `u64`, and a resync sets the counter to the number of pending
transactions at least. -/
structure Ranged (s : Allocator Task) : Prop where
  next : s.next < 2 ^ 64
  grants : ∀ grant ∈ s.grants, grant.nonce < 2 ^ 64
  resync : ∀ task phase, s.resync = some (task, phase) → Resync.Ranged phase

theorem Ranged.step (h : s.Ranged) (hstep : s.Takes event t) : t.Ranged := by
  cases hstep with
  | allocate task =>
      refine ⟨Nat.mod_lt _ (by decide), fun grant hgrant => ?_, h.resync⟩
      obtain rfl | hgrant := List.mem_cons.mp hgrant
      · exact h.next
      · exact h.grants grant hgrant
  | @broadcast task nonce hgrant =>
      refine ⟨h.next, fun grant hmem => ?_, h.resync⟩
      obtain rfl | hmem := List.mem_cons.mp hmem
      · exact h.grants ⟨task, nonce, false⟩ hgrant
      · exact h.grants grant (List.mem_of_mem_erase hmem)
  | reclaim hgrant =>
      exact ⟨h.grants _ hgrant, fun grant hmem => h.grants grant (List.mem_of_mem_erase hmem),
        h.resync⟩
  | abandon =>
      exact ⟨h.next, fun grant hmem => h.grants grant (List.mem_of_mem_erase hmem), h.resync⟩
  | lock => exact ⟨h.next, h.grants, by rintro _ _ ⟨⟩; trivial⟩
  | unanswered => exact ⟨h.next, h.grants, nofun⟩
  | counted hpending => exact ⟨h.next, h.grants, by rintro _ _ ⟨⟩; exact hpending⟩
  | current => exact ⟨h.next, h.grants, nofun⟩
  | behind hresync hlt =>
      exact ⟨h.next, h.grants, by rintro _ _ ⟨⟩; exact ⟨le_rfl, h.resync _ _ hresync⟩⟩
  | store hresync => exact ⟨(h.resync _ _ hresync).2, h.grants, nofun⟩

theorem completes_cases {pending : Nat} (h : s.completes event = some pending) :
    (∃ task, event = .load task ∧ pending ≤ s.next) ∨
      ∃ task new, event = .store task ∧ s.resync = some (task, .loaded pending new) := by
  unfold completes at h
  split at h
  · split_ifs at h with hcurrent
    cases h
    exact .inl ⟨_, rfl, hcurrent.2⟩
  · next hresync =>
      split_ifs at h with hholder
      cases h
      subst hholder
      exact .inr ⟨_, _, rfl, hresync⟩
  · cases h

/-- When a resync completes, the counter is at least what it read. -/
theorem le_next_of_completes (h : s.Ranged) (hstep : s.Takes event t) {pending : Nat}
    (hcompletes : s.completes event = some pending) : pending ≤ t.next := by
  obtain ⟨task, rfl, hle⟩ | ⟨task, new, rfl, hresync⟩ := completes_cases hcompletes
  · cases hstep <;> exact hle
  · cases hstep with
    | store hstored =>
        rw [hresync] at hstored
        cases hstored
        exact (h.resync _ _ hresync).1

/-- All nonces that are out are below the counter, and no two are the same. -/
structure Sound (s : Allocator Task) : Prop extends s.Ranged where
  below : ∀ grant ∈ s.grants, grant.nonce < s.next
  distinct : s.Distinct

/-- A grant and the others have different nonces. -/
theorem Distinct.ne_of_mem_erase (h : s.Distinct) {grant other : Grant Task}
    (hgrant : grant ∈ s.grants) (hother : other ∈ s.grants.erase grant) :
    other.nonce ≠ grant.nonce := by
  have hperm := (List.perm_cons_erase hgrant).map Grant.nonce
  have hnodup := hperm.nodup_iff.mp h
  rw [List.map_cons, List.nodup_cons] at hnodup
  exact fun heq => hnodup.1 (List.mem_map.mpr ⟨other, hother, heq⟩)

theorem Distinct.erase (h : s.Distinct) (grant : Grant Task) :
    ((s.grants.erase grant).map Grant.nonce).Nodup :=
  h.sublist (List.erase_sublist.map _)

theorem Sound.step (h : s.Sound) (hstep : s.Takes event t) (hcareful : s.careful event) :
    t.Sound := by
  have hranged := h.toRanged.step hstep
  cases hstep with
  | allocate task =>
      have hwrap : (s.next + 1) % 2 ^ 64 = s.next + 1 :=
        Nat.mod_eq_of_lt (by simpa [careful] using hcareful)
      refine ⟨hranged, fun grant hgrant => ?_, List.nodup_cons.mpr ⟨fun hmem => ?_, h.distinct⟩⟩
      · rw [hwrap]
        obtain rfl | hgrant := List.mem_cons.mp hgrant
        · exact Nat.lt_succ_self _
        · exact Nat.lt_succ_of_lt (h.below grant hgrant)
      · obtain ⟨grant, hgrant, heq⟩ := List.mem_map.mp hmem
        have hlt := h.below grant hgrant
        rw [heq] at hlt
        exact Nat.lt_irrefl _ hlt
  | @broadcast task nonce hgrant =>
      refine ⟨hranged, fun grant hmem => ?_,
        List.nodup_cons.mpr ⟨fun hmem => ?_, h.distinct.erase _⟩⟩
      · obtain rfl | hmem := List.mem_cons.mp hmem
        · exact h.below ⟨task, nonce, false⟩ hgrant
        · exact h.below grant (List.mem_of_mem_erase hmem)
      · obtain ⟨other, hother, heq⟩ := List.mem_map.mp hmem
        exact h.distinct.ne_of_mem_erase hgrant hother heq
  | @reclaim task nonce hgrant hnext =>
      -- the nonce was the highest one out
      refine ⟨hranged, fun grant hmem => ?_, h.distinct.erase _⟩
      have hlt := h.below grant (List.mem_of_mem_erase hmem)
      have hne : grant.nonce ≠ nonce := h.distinct.ne_of_mem_erase hgrant hmem
      have hgranted : nonce < s.next := h.below _ hgrant
      have hrange := h.next
      show grant.nonce < nonce
      omega
  | abandon =>
      exact ⟨hranged, fun grant hmem => h.below grant (List.mem_of_mem_erase hmem),
        h.distinct.erase _⟩
  | store hresync =>
      simp only [careful, hresync, List.all_eq_true, decide_eq_true_iff] at hcareful
      exact ⟨hranged, hcareful, h.distinct⟩
  | lock | unanswered | counted | current | behind => exact ⟨hranged, h.below, h.distinct⟩

/-- A nonce that is out and not below the counter will be handed out again. -/
theorem exists_duplicate (task : Task) {grant : Grant Task} (hgrant : grant ∈ s.grants)
    (hle : s.next ≤ grant.nonce) (hlt : grant.nonce < 2 ^ 64) :
    ∃ events u, s.Runs events u ∧ ¬ u.Distinct := by
  -- by induction on the number of nonces that are handed out before this one
  induction hdistance : grant.nonce - s.next generalizing s with
  | zero =>
      have heq : s.next = grant.nonce := by omega
      refine ⟨[.allocate task], _, .cons rfl (.nil _), fun hdistinct => ?_⟩
      have hfresh := (List.nodup_cons.mp hdistinct).1
      exact hfresh (List.mem_map.mpr ⟨grant, hgrant, heq.symm⟩)
  | succ distance ih =>
      have hwrap : (s.next + 1) % 2 ^ 64 = s.next + 1 := Nat.mod_eq_of_lt (by omega)
      let t : Allocator Task :=
        { s with next := (s.next + 1) % 2 ^ 64, grants := ⟨task, s.next, false⟩ :: s.grants }
      have hnext : t.next = s.next + 1 := hwrap
      obtain ⟨events, u, hrun, hduplicate⟩ :=
        ih (s := t) (.tail _ hgrant) (by omega) (by omega)
      exact ⟨.allocate task :: events, u, .cons rfl hrun, hduplicate⟩

/-- After a step that is not careful, some nonce is out that is not below the counter. -/
theorem exists_grant_of_not_careful (hranged : s.Ranged) (hstep : s.Takes event t)
    (hcareful : s.careful event = false) :
    ∃ (_ : Task) (grant : Grant Task), grant ∈ t.grants ∧ t.next ≤ grant.nonce := by
  cases hstep with
  | allocate task =>
      have hrange := hranged.next
      have hlast : s.next + 1 = 2 ^ 64 := by
        simp only [careful, decide_eq_false_iff_not] at hcareful
        omega
      refine ⟨task, ⟨task, s.next, false⟩, .head _, ?_⟩
      simp only [hlast, Nat.mod_self]
      exact Nat.zero_le _
  | @store task pending new hresync =>
      simp only [careful, hresync, List.all_eq_false, decide_eq_true_iff] at hcareful
      obtain ⟨grant, hgrant, hle⟩ := hcareful
      exact ⟨task, grant, hgrant, Nat.le_of_not_lt hle⟩
  | broadcast | reclaim | abandon | lock | unanswered | counted | current | behind =>
      cases hcareful

omit [DecidableEq Task] in
theorem ranged_bootstrap {pending : Nat} {storedFloor : Option Nat} (hpending : pending < 2 ^ 64)
    (hfloor : ∀ floor ∈ storedFloor, floor < 2 ^ 64) :
    (bootstrap pending storedFloor : Allocator Task).Ranged := by
  refine ⟨?_, nofun, nofun⟩
  cases storedFloor with
  | none => simpa [bootstrap] using hpending
  | some floor => exact max_lt hpending (hfloor floor rfl)

end Allocator

open Allocator in
/-- As long as every step is careful, no nonce is out twice. A step that is not careful can be
followed by others until one is. -/
theorem nonces_distinct [DecidableEq Task] {pending : Nat} {storedFloor : Option Nat}
    (hpending : pending < 2 ^ 64) (hfloor : ∀ floor ∈ storedFloor, floor < 2 ^ 64) :
    (∀ (events : List (Event Task)) s,
        (bootstrap pending storedFloor).RunsCarefully events s → s.Distinct) ∧
      (∀ (events : List (Event Task)) s, (bootstrap pending storedFloor).Runs events s →
        ∀ event t count, s.step event = some t → s.completes event = some count →
          count ≤ t.next) ∧
      ∀ (events : List (Event Task)) s, (bootstrap pending storedFloor).Runs events s →
        ∀ event t, s.step event = some t → s.careful event = false →
          ∃ later u, t.Runs later u ∧ ¬ u.Distinct := by
  have hstart : (bootstrap pending storedFloor : Allocator Task).Ranged :=
    ranged_bootstrap hpending hfloor
  have hranged : ∀ (events : List (Event Task)) s,
      (bootstrap pending storedFloor).Runs events s → s.Ranged := fun events s hrun =>
    hrun.invariant (fun hstep h => h.step (takes_of_step hstep)) hstart
  refine ⟨fun events s hrun => ?_, fun events s hrun event t count hstep hcompletes => ?_,
    fun events s hrun event t hstep hcareful => ?_⟩
  · have hsound : s.Sound := by
      refine hrun.invariant (fun hstep h => ?_) ⟨hstart, nofun, List.nodup_nil⟩
      rw [carefulStep] at hstep
      split_ifs at hstep with hcareful
      exact h.step (takes_of_step hstep) hcareful
    exact hsound.distinct
  · exact le_next_of_completes (hranged events s hrun) (takes_of_step hstep) hcompletes
  · have htakes := takes_of_step hstep
    obtain ⟨task, grant, hgrant, hle⟩ :=
      exists_grant_of_not_careful (hranged events s hrun) htakes hcareful
    have hlt := ((hranged events s hrun).step htakes).grants grant hgrant
    exact exists_duplicate task hgrant hle hlt

section Sample

open Allocator

/-- Two tasks allocate a nonce each, the first one resyncs and allocates another one. -/
theorem nonces_distinct_resynced :
    Distinct (⟨9, [⟨0, 8, false⟩, ⟨1, 6, false⟩, ⟨0, 5, false⟩], none⟩ : Allocator (Fin 2)) := by
  have hrun : (bootstrap 5 none : Allocator (Fin 2)).RunsCarefully
      [.allocate 0, .allocate 1, .lock 0, .count 0 (some 8), .load 0, .store 0, .allocate 0]
      ⟨9, [⟨0, 8, false⟩, ⟨1, 6, false⟩, ⟨0, 5, false⟩], none⟩ := Run.of_foldlM (by decide)
  exact (nonces_distinct (by decide) (by simp)).1 _ _ hrun

/-- Between the load and the store of a resync, another task allocates the nonces 5 and 6. The
store takes the counter back to 6. -/
theorem nonce_handed_out_twice :
    (bootstrap 5 none : Allocator (Fin 2)).Runs
        [.lock 1, .count 1 (some 6), .load 1, .allocate 0, .allocate 0, .store 1, .allocate 1]
        ⟨7, [⟨1, 6, false⟩, ⟨0, 6, false⟩, ⟨0, 5, false⟩], none⟩ ∧
      ¬ Distinct (⟨7, [⟨1, 6, false⟩, ⟨0, 6, false⟩, ⟨0, 5, false⟩], none⟩ :
        Allocator (Fin 2)) :=
  ⟨Run.of_foldlM (by decide), by simp [Distinct]⟩

end Sample

end FluentStf.NonceAllocator
