import FluentStf.Orchestrator.Db
import FluentStf.Runs
import FluentStf.Weight
import Mathlib.Data.Finset.Max

/-! The cold store of witnesses. Payloads are stored compressed, with a counter of the bytes
stored. A witness is committed at once, or waits in a buffer for the next batch. Beside the
store stands what it is for: a log of the payloads, in the order in which they were buffered
and committed. -/
namespace FluentStf.Orchestrator

open Std

/-- `zstd`, at the level that the store uses. -/
structure Zstd where
  encodeAll : Bytes → Bytes
  decodeAll : Bytes → Option Bytes

def Zstd.Lossless (zstd : Zstd) : Prop :=
  ∀ payload, zstd.decodeAll (zstd.encodeAll payload) = some payload

structure HubConfig where
  retentionBlocks : Nat
  batchSize : Nat

/-- `WitnessHub::new` takes a batch size of 0 for 1. -/
def HubConfig.new (retentionBlocks batchSize : Nat) : HubConfig :=
  ⟨retentionBlocks, max batchSize 1⟩

/-- The table of compressed witnesses, its size counter and the buffer in memory. -/
structure WitnessHub where
  cold : ExtTreeMap Nat Bytes
  /-- The row of the table `cold_meta`, if there is one. -/
  totalBytes : Option Nat
  buffer : List (Nat × Bytes)

/-- `u64::saturating_add`. -/
def saturatingAdd (a b : Nat) : Nat := min (a + b) (2 ^ 64 - 1)

namespace WitnessHub

def new : WitnessHub := ⟨∅, none, []⟩

def readTotalBytes (hub : WitnessHub) : Nat := hub.totalBytes.getD 0

/-- The loop over the entries of a batch: the table, the counter and the highest block. -/
def insertEntries : List (Nat × Bytes) → ExtTreeMap Nat Bytes × Nat × Nat →
    ExtTreeMap Nat Bytes × Nat × Nat
  | [], state => state
  | (blockNumber, compressed) :: entries, (cold, totalBytes, highest) =>
      let priorLen := cold[blockNumber]?.elim 0 List.length
      insertEntries entries (cold.insert blockNumber compressed,
        saturatingAdd (totalBytes - priorLen) compressed.length,
        if highest < blockNumber then blockNumber else highest)

/-- Rows with their sizes are removed from the table and from the counter. -/
def removeRows : List (Nat × Nat) → ExtTreeMap Nat Bytes × Nat →
    ExtTreeMap Nat Bytes × Nat
  | [], state => state
  | (blockNumber, size) :: stale, (cold, totalBytes) =>
      removeRows stale (cold.erase blockNumber, totalBytes - size)

/-- The rows whose number satisfies the condition, with their sizes. -/
def staleRows (stale : Nat → Bool) (cold : ExtTreeMap Nat Bytes) : List (Nat × Nat) :=
  (cold.toList.filter fun row => stale row.1).map fun row => (row.1, row.2.length)

/-- Entries too far below the highest one of the batch are dropped. -/
def prune (retentionBlocks highest : Nat) (state : ExtTreeMap Nat Bytes × Nat) :
    ExtTreeMap Nat Bytes × Nat :=
  let cutoff := highest - retentionBlocks
  if 0 < retentionBlocks ∧ 0 < cutoff then
    removeRows (staleRows (fun blockNumber => blockNumber < cutoff) state.1) state
  else state

/-- `commit_entries` with `commit_batch_blocking`. -/
def commitEntries (config : HubConfig) (hub : WitnessHub) (entries : List (Nat × Bytes)) :
    WitnessHub :=
  if entries = [] then hub
  else
    let (cold, totalBytes, highest) := insertEntries entries (hub.cold, hub.readTotalBytes, 0)
    let (cold, totalBytes) := prune config.retentionBlocks highest (cold, totalBytes)
    { hub with cold := cold, totalBytes := some totalBytes }

def push (zstd : Zstd) (config : HubConfig) (hub : WitnessHub) (blockNumber : Nat)
    (payload : Bytes) : WitnessHub :=
  hub.commitEntries config [(blockNumber, zstd.encodeAll payload)]

def pushBatched (zstd : Zstd) (config : HubConfig) (hub : WitnessHub) (blockNumber : Nat)
    (payload : Bytes) : WitnessHub :=
  let buffer := hub.buffer ++ [(blockNumber, zstd.encodeAll payload)]
  if config.batchSize ≤ buffer.length then { hub with buffer := [] }.commitEntries config buffer
  else { hub with buffer := buffer }

def flushPending (config : HubConfig) (hub : WitnessHub) : WitnessHub :=
  if hub.buffer = [] then hub else { hub with buffer := [] }.commitEntries config hub.buffer

/-- The rows above the target are removed, and the answer says how many and how many bytes
they had. The bound of the range wraps around. -/
def unwindAbove (hub : WitnessHub) (target : Nat) : WitnessHub × Nat × Nat :=
  let first := (target + 1) % 2 ^ 64
  let stale := staleRows (fun blockNumber => first ≤ blockNumber) hub.cold
  let (cold, totalBytes) := removeRows stale (hub.cold, hub.readTotalBytes)
  let bytesFreed := stale.foldl (fun freed row => saturatingAdd freed row.2) 0
  ({ hub with cold := cold, totalBytes := some totalBytes }, stale.length, bytesFreed)

def lastCommittedBlock (hub : WitnessHub) : Option Nat := hub.cold.maxKey?

/-- The last value for a block in a list of entries. -/
def lastFor (blockNumber : Nat) (entries : List (Nat × Bytes)) : Option Bytes :=
  entries.reverse.findSome? fun entry =>
    if entry.1 = blockNumber then some entry.2 else none

/-- The payload of the `ProveRequest`. -/
def getWitness (zstd : Zstd) (hub : WitnessHub) (blockNumber : Nat) : Option Bytes :=
  match lastFor blockNumber hub.buffer with
  | some compressed => zstd.decodeAll compressed
  | none => hub.cold[blockNumber]?.bind zstd.decodeAll

end WitnessHub

/-- The calls that change the store. -/
inductive HubCall where
  | push (blockNumber : Nat) (payload : Bytes)
  | pushBatched (blockNumber : Nat) (payload : Bytes)
  | flushPending
  | unwindAbove (target : Nat)
deriving DecidableEq

def HubCall.run (zstd : Zstd) (config : HubConfig) (hub : WitnessHub) : HubCall → WitnessHub
  | push blockNumber payload => hub.push zstd config blockNumber payload
  | pushBatched blockNumber payload => hub.pushBatched zstd config blockNumber payload
  | flushPending => hub.flushPending config
  | unwindAbove target => (hub.unwindAbove target).1

/-- The bytes that a call adds to the store or the buffer. -/
def HubCall.size (zstd : Zstd) : HubCall → Nat
  | push _ payload | pushBatched _ payload => (zstd.encodeAll payload).length
  | flushPending | unwindAbove _ => 0

def HubCall.unwinds : HubCall → Bool
  | unwindAbove _ => true
  | _ => false

/-- What the store is for: the payloads that wait, and those committed so far, in order. -/
structure WitnessLog where
  buffered : List (Nat × Bytes)
  committed : List (Nat × Bytes)
deriving DecidableEq

namespace WitnessLog

/-- The payloads that a call commits. -/
def commits (config : HubConfig) (log : WitnessLog) : HubCall → List (Nat × Bytes)
  | .push blockNumber payload => [(blockNumber, payload)]
  | .pushBatched blockNumber payload =>
      let buffered := log.buffered ++ [(blockNumber, payload)]
      if config.batchSize ≤ buffered.length then buffered else []
  | .flushPending => log.buffered
  | .unwindAbove _ => []

/-- The payloads that wait after a call. -/
def waits (config : HubConfig) (log : WitnessLog) : HubCall → List (Nat × Bytes)
  | .pushBatched blockNumber payload =>
      let buffered := log.buffered ++ [(blockNumber, payload)]
      if config.batchSize ≤ buffered.length then [] else buffered
  | .flushPending => []
  | .push _ _ | .unwindAbove _ => log.buffered

def run (config : HubConfig) (log : WitnessLog) (call : HubCall) : WitnessLog :=
  ⟨log.waits config call, log.committed ++ log.commits config call⟩

end WitnessLog

namespace WitnessHub

section Entries

variable {entries : List (Nat × Bytes)} {n : Nat}

theorem lastFor_append (first second : List (Nat × Bytes)) :
    lastFor n (first ++ second) = (lastFor n second).or (lastFor n first) := by
  rw [lastFor, List.reverse_append, List.findSome?_append]
  rfl

theorem lastFor_cons (entry : Nat × Bytes) :
    lastFor n (entry :: entries) =
      (lastFor n entries).or (if entry.1 = n then some entry.2 else none) := by
  rw [← List.singleton_append, lastFor_append]
  simp [lastFor]

theorem lastFor_map (f : Bytes → Bytes) :
    lastFor n (entries.map fun entry => (entry.1, f entry.2)) = (lastFor n entries).map f := by
  induction entries with
  | nil => rfl
  | cons entry entries ih =>
      rw [List.map_cons, lastFor_cons, lastFor_cons, ih]
      cases lastFor n entries with
      | none => by_cases h : entry.1 = n <;> simp [h]
      | some value => simp

theorem lastFor_isSome : (lastFor n entries).isSome ↔ n ∈ entries.map Prod.fst := by
  induction entries with
  | nil => simp [lastFor]
  | cons entry entries ih =>
      rw [lastFor_cons, List.map_cons, List.mem_cons, ← ih, Option.isSome_or, Bool.or_eq_true,
        or_comm]
      refine or_congr_left ?_
      by_cases h : entry.1 = n
      · rw [if_pos h]
        exact iff_of_true rfl h.symm
      · rw [if_neg h]
        exact iff_of_false nofun (Ne.symm h)

end Entries

section Tables

variable {cold : ExtTreeMap Nat Bytes} {totalBytes highest n : Nat}
  {entries : List (Nat × Bytes)}

def entriesSize (entries : List (Nat × Bytes)) : Nat :=
  (entries.map fun entry => entry.2.length).sum

/-- A batch goes into the table, and the last entry for a block stays. -/
theorem getElem?_insertEntries :
    (insertEntries entries (cold, totalBytes, highest)).1[n]? =
      (lastFor n entries).or cold[n]? := by
  induction entries generalizing cold totalBytes highest with
  | nil => simp [insertEntries, lastFor]
  | cons entry entries ih =>
      rw [insertEntries, ih, lastFor_cons, Option.or_assoc, ExtTreeMap.getElem?_insert]
      by_cases h : entry.1 = n <;> simp [h]

/-- As long as nothing saturates, the counter stays the size of the table. -/
theorem insertEntries_bytes (hbytes : totalBytes = weight List.length cold)
    (hsize : weight List.length cold + entriesSize entries < 2 ^ 64) :
    (insertEntries entries (cold, totalBytes, highest)).2.1 =
        weight List.length (insertEntries entries (cold, totalBytes, highest)).1 ∧
      weight List.length (insertEntries entries (cold, totalBytes, highest)).1 ≤
        weight List.length cold + entriesSize entries := by
  induction entries generalizing cold totalBytes highest with
  | nil => exact ⟨hbytes, Nat.le_add_right ..⟩
  | cons entry entries ih =>
      have hinsert := @weight_insert _ List.length cold entry.1 entry.2
      have hprior := @le_weight _ List.length cold entry.1
      have hrest : entriesSize (entry :: entries) = entry.2.length + entriesSize entries := rfl
      rw [hrest] at hsize
      rw [insertEntries]
      obtain ⟨heq, hle⟩ := @ih (cold.insert entry.1 entry.2)
        (saturatingAdd (totalBytes - cold[entry.1]?.elim 0 List.length) entry.2.length)
        (if highest < entry.1 then entry.1 else highest) (by unfold saturatingAdd; omega) (by omega)
      exact ⟨heq, by omega⟩

/-- The highest block comes from the batch, unless no block is above the start. -/
theorem insertEntries_highest :
    (insertEntries entries (cold, totalBytes, highest)).2.2 = highest ∨
      (insertEntries entries (cold, totalBytes, highest)).2.2 ∈ entries.map Prod.fst := by
  induction entries generalizing cold totalBytes highest with
  | nil => exact .inl rfl
  | cons entry entries ih =>
      rw [insertEntries]
      obtain heq | hmem := @ih (cold.insert entry.1 entry.2)
        (saturatingAdd (totalBytes - cold[entry.1]?.elim 0 List.length) entry.2.length)
        (if highest < entry.1 then entry.1 else highest)
      · rw [heq]
        split
        · exact .inr (.head _)
        · exact .inl rfl
      · exact .inr (.tail _ hmem)

/-- Rows that are in the table with the size that is listed. -/
def Listed (rows : List (Nat × Nat)) (cold : ExtTreeMap Nat Bytes) : Prop :=
  (rows.map Prod.fst).Nodup ∧
    ∀ row ∈ rows, ∃ value : Bytes, cold[row.1]? = some value ∧ value.length = row.2

theorem removeRows_spec {rows : List (Nat × Nat)} (h : Listed rows cold) :
    (∀ n, (removeRows rows (cold, totalBytes)).1[n]? =
        if n ∈ rows.map Prod.fst then none else cold[n]?) ∧
      (totalBytes = weight List.length cold → (removeRows rows (cold, totalBytes)).2 =
        weight List.length (removeRows rows (cold, totalBytes)).1) := by
  induction rows generalizing cold totalBytes with
  | nil => exact ⟨fun n => by simp [removeRows], id⟩
  | cons row rows ih =>
      obtain ⟨hnodup, hrows⟩ := h
      obtain ⟨hfresh, hnodup⟩ := List.nodup_cons.mp hnodup
      obtain ⟨value, hvalue, hlength⟩ := hrows row (.head _)
      have hrest : Listed rows (cold.erase row.1) := by
        refine ⟨hnodup, fun other hother => ?_⟩
        have hne : other.1 ≠ row.1 := by
          intro heq
          exact hfresh (heq ▸ List.mem_map_of_mem hother)
        obtain ⟨kept, hkept, hsize⟩ := hrows other (.tail _ hother)
        exact ⟨kept, (getElem?_erase_ne hne).trans hkept, hsize⟩
      obtain ⟨hget, hbytes⟩ := @ih (cold.erase row.1) (totalBytes - row.2) hrest
      rw [removeRows]
      refine ⟨fun n => ?_, fun htotal => hbytes ?_⟩
      · rw [hget, List.map_cons]
        by_cases hn : n = row.1
        · rw [hn, ExtTreeMap.getElem?_erase_self, if_pos (List.mem_cons_self ..), ite_self]
        · rw [getElem?_erase_ne hn]
          simp only [List.mem_cons, hn, false_or]
      · have herase := @weight_erase _ List.length _ _ _ hvalue
        omega

theorem fst_staleRows (stale : Nat → Bool) :
    (staleRows stale cold).map Prod.fst = cold.keys.filter stale := by
  rw [staleRows, List.map_map, ← ExtTreeMap.map_fst_toList_eq_keys, List.filter_map]
  rfl

theorem listed_staleRows (stale : Nat → Bool) : Listed (staleRows stale cold) cold := by
  constructor
  · rw [fst_staleRows]
    exact ExtTreeMap.nodup_keys.filter _
  · intro row hrow
    obtain ⟨⟨n, value⟩, hmem, rfl⟩ := List.mem_map.mp hrow
    have hvalue := ExtTreeMap.mem_toList_iff_getElem?_eq_some.mp (List.mem_filter.mp hmem).1
    exact ⟨value, hvalue, rfl⟩

/-- Removing the stale rows keeps the others, and the counter stays the size of the table. -/
theorem removeStale_spec (stale : Nat → Bool) :
    (∀ n, (removeRows (staleRows stale cold) (cold, totalBytes)).1[n]? =
        if stale n then none else cold[n]?) ∧
      (totalBytes = weight List.length cold →
        (removeRows (staleRows stale cold) (cold, totalBytes)).2 =
          weight List.length (removeRows (staleRows stale cold) (cold, totalBytes)).1) := by
  obtain ⟨hget, hbytes⟩ := @removeRows_spec cold totalBytes _ (listed_staleRows stale)
  refine ⟨fun n => ?_, hbytes⟩
  rw [hget, fst_staleRows]
  by_cases hstale : stale n
  · by_cases hmem : n ∈ cold
    · rw [if_pos hstale, if_pos (List.mem_filter.mpr ⟨ExtTreeMap.mem_keys.mpr hmem, hstale⟩)]
    · rw [if_pos hstale, ExtTreeMap.getElem?_eq_none hmem, ite_self]
  · rw [if_neg hstale, if_neg fun hmem => hstale (List.mem_filter.mp hmem).2]

theorem removeRows_le (rows : List (Nat × Nat)) :
    (removeRows rows (cold, totalBytes)).2 ≤ totalBytes := by
  induction rows generalizing cold totalBytes with
  | nil => exact le_rfl
  | cons row rows ih =>
      rw [removeRows]
      exact ih.trans (Nat.sub_le ..)

/-- Pruning removes only rows below the highest one of the batch. -/
theorem prune_spec (retentionBlocks : Nat) :
    (∃ pruned : Nat → Bool, (∀ n, pruned n → n < highest) ∧
        ∀ n, (prune retentionBlocks highest (cold, totalBytes)).1[n]? =
          if pruned n then none else cold[n]?) ∧
      (totalBytes = weight List.length cold →
        (prune retentionBlocks highest (cold, totalBytes)).2 =
            weight List.length (prune retentionBlocks highest (cold, totalBytes)).1 ∧
          (prune retentionBlocks highest (cold, totalBytes)).2 ≤ totalBytes) := by
  by_cases hactive : 0 < retentionBlocks ∧ 0 < highest - retentionBlocks
  · simp only [prune, if_pos hactive]
    obtain ⟨hget, hbytes⟩ := @removeStale_spec cold totalBytes
      fun blockNumber => blockNumber < highest - retentionBlocks
    refine ⟨⟨_, fun n hn => ?_, hget⟩, fun htotal => ⟨hbytes htotal, removeRows_le _⟩⟩
    have hlt : n < highest - retentionBlocks := of_decide_eq_true hn
    omega
  · simp only [prune, if_neg hactive]
    exact ⟨⟨fun _ => false, nofun, fun _ => rfl⟩, fun htotal => ⟨htotal, le_rfl⟩⟩

end Tables

section Commit

variable {config : HubConfig} {hub : WitnessHub} {entries : List (Nat × Bytes)}

theorem commitEntries_buffer : (hub.commitEntries config entries).buffer = hub.buffer := by
  unfold commitEntries
  split <;> rfl

/-- A commit stores the last entry for each block of the batch, and what it removes is below
some block of the batch. -/
theorem commitEntries_cold :
    ∃ pruned : Nat → Bool, (∀ n, pruned n → ∃ entry ∈ entries, n < entry.1) ∧
      ∀ n, (hub.commitEntries config entries).cold[n]? =
        if pruned n then none else (lastFor n entries).or hub.cold[n]? := by
  unfold commitEntries
  split
  · next hempty =>
      subst hempty
      exact ⟨fun _ => false, nofun, fun n => by simp [lastFor]⟩
  · generalize hstate : insertEntries entries (hub.cold, hub.readTotalBytes, 0) = state
    obtain ⟨cold, totalBytes, highest⟩ := state
    obtain ⟨⟨pruned, hpruned, hget⟩, -⟩ :=
      @prune_spec cold totalBytes highest config.retentionBlocks
    refine ⟨pruned, fun n hn => ?_, fun n => ?_⟩
    · have hlt := hpruned n hn
      have hhighest := @insertEntries_highest hub.cold hub.readTotalBytes 0 entries
      rw [hstate] at hhighest
      obtain hzero | hmem := hhighest
      · exact absurd hzero (by simp only; omega)
      · obtain ⟨entry, hentry, heq⟩ := List.mem_map.mp hmem
        exact ⟨entry, hentry, heq ▸ hlt⟩
    · have hinsert := @getElem?_insertEntries hub.cold hub.readTotalBytes 0 n entries
      rw [hstate] at hinsert
      rw [← hinsert]
      exact hget n

/-- A commit keeps the counter the size of the table. -/
theorem commitEntries_bytes (hbytes : hub.readTotalBytes = weight List.length hub.cold)
    (hsize : weight List.length hub.cold + entriesSize entries < 2 ^ 64) :
    (hub.commitEntries config entries).readTotalBytes =
        weight List.length (hub.commitEntries config entries).cold ∧
      weight List.length (hub.commitEntries config entries).cold ≤
        weight List.length hub.cold + entriesSize entries := by
  unfold commitEntries
  split
  · exact ⟨hbytes, Nat.le_add_right ..⟩
  · obtain ⟨htotal, hle⟩ := @insertEntries_bytes _ _ 0 _ hbytes hsize
    generalize insertEntries entries (hub.cold, hub.readTotalBytes, 0) = state at htotal hle
    obtain ⟨cold, totalBytes, highest⟩ := state
    obtain ⟨-, hprune⟩ := @prune_spec cold totalBytes highest config.retentionBlocks
    obtain ⟨hpruned, hless⟩ := hprune htotal
    refine ⟨hpruned, ?_⟩
    show weight List.length (prune config.retentionBlocks highest (cold, totalBytes)).1 ≤ _
    rw [← hpruned]
    simp only at htotal hle
    omega

end Commit

theorem getElem?_unwindAbove (hub : WitnessHub) (target n : Nat) :
    (hub.unwindAbove target).1.cold[n]? =
      if (target + 1) % 2 ^ 64 ≤ n then none else hub.cold[n]? := by
  obtain ⟨hget, _⟩ := @removeStale_spec hub.cold hub.readTotalBytes
    fun blockNumber => (target + 1) % 2 ^ 64 ≤ blockNumber
  exact (hget n).trans (by simp only [decide_eq_true_eq])

section Calls

variable {zstd : Zstd} {config : HubConfig} {hub : WitnessHub} {log : WitnessLog} {call : HubCall}
  {spent : Nat}

def compressAll (zstd : Zstd) (entries : List (Nat × Bytes)) : List (Nat × Bytes) :=
  entries.map fun entry => (entry.1, zstd.encodeAll entry.2)

theorem entriesSize_append (first second : List (Nat × Bytes)) :
    entriesSize (first ++ second) = entriesSize first + entriesSize second := by
  simp [entriesSize]

/-- What a call adds waits or is committed. -/
theorem size_split :
    entriesSize (compressAll zstd (log.waits config call)) +
        entriesSize (compressAll zstd (log.commits config call)) =
      entriesSize (compressAll zstd log.buffered) + call.size zstd := by
  cases call with
  | push n payload => rfl
  | pushBatched n payload =>
      have hlast : entriesSize (compressAll zstd (log.buffered ++ [(n, payload)])) =
          entriesSize (compressAll zstd log.buffered) + (zstd.encodeAll payload).length := by
        rw [compressAll, List.map_append, entriesSize_append]
        rfl
      simp only [WitnessLog.waits, WitnessLog.commits]
      split
      · exact (Nat.zero_add _).trans hlast
      · exact hlast
  | flushPending => exact Nat.zero_add _
  | unwindAbove target => rfl

/-- The three calls that commit do so in one way. -/
theorem run_eq_commit (hbuffer : hub.buffer = compressAll zstd log.buffered)
    (hcall : call.unwinds = false) :
    call.run zstd config hub =
      { hub with buffer := compressAll zstd (log.waits config call) }.commitEntries config
        (compressAll zstd (log.commits config call)) := by
  cases call with
  | push n payload =>
      rw [show log.waits config (.push n payload) = log.buffered from rfl, ← hbuffer]
      rfl
  | pushBatched n payload =>
      have happend : hub.buffer ++ [(n, zstd.encodeAll payload)] =
          compressAll zstd (log.buffered ++ [(n, payload)]) := by
        rw [hbuffer, compressAll, compressAll, List.map_append]
        rfl
      have hlength : (compressAll zstd (log.buffered ++ [(n, payload)])).length =
          (log.buffered ++ [(n, payload)]).length := List.length_map ..
      simp only [HubCall.run, pushBatched, WitnessLog.waits, WitnessLog.commits, happend, hlength]
      split <;> rfl
  | flushPending =>
      simp only [HubCall.run, flushPending, WitnessLog.waits, WitnessLog.commits, ← hbuffer]
      split
      · next hempty =>
          cases hub
          cases hempty
          rfl
      · rfl
  | unwindAbove target => cases hcall

/-- The store accounts for its bytes and agrees with the log. -/
structure Accounts (zstd : Zstd) (hub : WitnessHub) (log : WitnessLog) (spent : Nat) : Prop where
  buffer : hub.buffer = compressAll zstd log.buffered
  bytes : hub.readTotalBytes = weight List.length hub.cold
  stored : ∀ n value, hub.cold[n]? = some value →
    ∃ payload, lastFor n log.committed = some payload ∧ value = zstd.encodeAll payload
  budget : weight List.length hub.cold + entriesSize hub.buffer ≤ spent

theorem accounts_new : new.Accounts zstd ⟨[], []⟩ 0 where
  buffer := rfl
  bytes := weight_empty.symm
  stored := by
    intro n value h
    simp [new] at h
  budget := by
    rw [new, weight_empty]
    rfl

theorem Accounts.commit (h : hub.Accounts zstd log spent) (hcall : call.unwinds = false)
    (hsize : spent + call.size zstd < 2 ^ 64) :
    (call.run zstd config hub).Accounts zstd (log.run config call)
      (spent + call.size zstd) := by
  have hsplit := @size_split zstd config log call
  have hbudget := h.budget
  rw [h.buffer] at hbudget
  rw [run_eq_commit h.buffer hcall]
  obtain ⟨pruned, _, hget⟩ := @commitEntries_cold config
    { hub with buffer := compressAll zstd (log.waits config call) }
    (compressAll zstd (log.commits config call))
  obtain ⟨hbytes, hweight⟩ := @commitEntries_bytes config
    { hub with buffer := compressAll zstd (log.waits config call) }
    (compressAll zstd (log.commits config call)) h.bytes (by simp only; omega)
  refine ⟨commitEntries_buffer, hbytes, fun n value hvalue => ?_, ?_⟩
  · rw [hget] at hvalue
    split_ifs at hvalue
    simp only [WitnessLog.run, lastFor_append]
    rw [compressAll, lastFor_map] at hvalue
    cases hlast : lastFor n (log.commits config call) with
    | none =>
        rw [hlast] at hvalue
        obtain ⟨payload, hpayload, heq⟩ := h.stored n value hvalue
        exact ⟨payload, hpayload, heq⟩
    | some payload =>
        rw [hlast] at hvalue
        exact ⟨payload, rfl, (Option.some.inj hvalue).symm⟩
  · rw [commitEntries_buffer]
    simp only at hweight ⊢
    omega

theorem Accounts.unwind (h : hub.Accounts zstd log spent) (target : Nat) :
    (hub.unwindAbove target).1.Accounts zstd log spent := by
  obtain ⟨_, hbytes⟩ := @removeStale_spec hub.cold hub.readTotalBytes
    fun blockNumber => (target + 1) % 2 ^ 64 ≤ blockNumber
  have hle := @removeRows_le hub.cold hub.readTotalBytes
    (staleRows (fun blockNumber => (target + 1) % 2 ^ 64 ≤ blockNumber) hub.cold)
  have htotal := hbytes h.bytes
  refine ⟨h.buffer, htotal, fun n value hvalue => h.stored n value ?_, ?_⟩
  · rw [getElem?_unwindAbove] at hvalue
    split_ifs at hvalue
    exact hvalue
  · have hbudget := h.budget
    have hbefore := h.bytes
    simp only [unwindAbove, ← htotal]
    omega

/-- One call. -/
theorem Accounts.run (h : hub.Accounts zstd log spent) (hsize : spent + call.size zstd < 2 ^ 64) :
    (call.run zstd config hub).Accounts zstd (log.run config call)
      (spent + call.size zstd) := by
  cases hcall : call.unwinds with
  | false => exact h.commit hcall hsize
  | true =>
      cases call with
      | unwindAbove target =>
          rw [WitnessLog.run, WitnessLog.commits, List.append_nil]
          exact h.unwind target
      | push | pushBatched | flushPending => cases hcall

theorem accounts_run {calls : List HubCall} (hsize : (calls.map (HubCall.size zstd)).sum < 2 ^ 64) :
    (calls.foldl (HubCall.run zstd config) new).Accounts zstd
      (calls.foldl (WitnessLog.run config) ⟨[], []⟩) (calls.map (HubCall.size zstd)).sum := by
  induction calls using List.reverseRecOn with
  | nil => exact accounts_new
  | append_singleton calls call ih =>
      simp only [List.map_append, List.sum_append, List.map_singleton, List.sum_singleton] at hsize
      simp only [List.foldl_concat, List.map_append, List.sum_append, List.map_singleton,
        List.sum_singleton]
      exact (ih (by omega)).run hsize

/-- Lookups agree with the log. -/
theorem Accounts.getWitness (h : hub.Accounts zstd log spent) (hlossless : zstd.Lossless)
    (n : Nat) :
    hub.getWitness zstd n =
      match lastFor n log.buffered with
      | some payload => some payload
      | none => if n ∈ hub.cold then lastFor n log.committed else none := by
  rw [WitnessHub.getWitness, h.buffer, compressAll, lastFor_map]
  cases lastFor n log.buffered with
  | some payload => exact hlossless payload
  | none =>
      simp only [Option.map_none]
      cases hvalue : hub.cold[n]? with
      | none =>
          rw [if_neg (by rw [ExtTreeMap.mem_iff_isSome_getElem?, hvalue]; nofun)]
          rfl
      | some value =>
          obtain ⟨payload, hpayload, rfl⟩ := h.stored n value hvalue
          rw [if_pos (by rw [ExtTreeMap.mem_iff_isSome_getElem?, hvalue]; rfl), hpayload]
          exact hlossless payload

variable (hbuffer : hub.buffer = compressAll zstd log.buffered)

include hbuffer

/-- What is stored after a call was stored or is committed, and only blocks below a committed
one are removed. -/
theorem mem_cold_run (hcall : call.unwinds = false) :
    ∃ pruned : Nat → Bool,
      (∀ n, pruned n → ∃ m ∈ (log.commits config call).map Prod.fst, n < m) ∧
      ∀ n, n ∈ (call.run zstd config hub).cold ↔
        pruned n = false ∧ (n ∈ hub.cold ∨ n ∈ (log.commits config call).map Prod.fst) := by
  rw [run_eq_commit hbuffer hcall]
  obtain ⟨pruned, hpruned, hget⟩ := @commitEntries_cold config
    { hub with buffer := compressAll zstd (log.waits config call) }
    (compressAll zstd (log.commits config call))
  refine ⟨pruned, fun n hn => ?_, fun n => ?_⟩
  · obtain ⟨entry, hentry, hlt⟩ := hpruned n hn
    obtain ⟨original, horiginal, rfl⟩ := List.mem_map.mp hentry
    exact ⟨original.1, List.mem_map_of_mem horiginal, hlt⟩
  · rw [ExtTreeMap.mem_iff_isSome_getElem?, hget, compressAll, lastFor_map,
      ExtTreeMap.mem_iff_isSome_getElem?, ← lastFor_isSome]
    cases pruned n with
    | true => simp
    | false => simp [or_comm]

/-- The highest block that is stored or committed is stored after the call. -/
theorem lastCommittedBlock_run (hcall : call.unwinds = false) {n : Nat}
    (h : IsGreatest {m | m ∈ hub.cold ∨ m ∈ (log.commits config call).map Prod.fst} n) :
    (call.run zstd config hub).lastCommittedBlock = some n := by
  obtain ⟨pruned, hpruned, hmem⟩ := @mem_cold_run zstd config hub log call hbuffer hcall
  refine ExtTreeMap.maxKey?_eq_some_iff_mem_and_forall.mpr ⟨(hmem n).mpr ⟨?_, h.1⟩, ?_⟩
  · cases hn : pruned n with
    | false => rfl
    | true =>
        obtain ⟨m, hm, hlt⟩ := hpruned n hn
        exact absurd (h.2 (.inr hm)) (Nat.not_le_of_lt hlt)
  · intro m hm
    exact Nat.isLE_compare.mpr (h.2 ((hmem m).mp hm).2)

/-- No call but `unwind_above` takes the last committed block back. -/
theorem lastCommittedBlock_mono (hcall : call.unwinds = false) {n : Nat}
    (h : hub.lastCommittedBlock = some n) :
    ∃ m, (call.run zstd config hub).lastCommittedBlock = some m ∧ n ≤ m := by
  let blocks := (hub.cold.keys ++ (log.commits config call).map Prod.fst).toFinset
  have hblocks : ∀ m, m ∈ blocks ↔
      m ∈ hub.cold ∨ m ∈ (log.commits config call).map Prod.fst := by
    intro m
    rw [List.mem_toFinset, List.mem_append, ExtTreeMap.mem_keys]
  have hn : n ∈ blocks := (hblocks n).mpr (.inl (ExtTreeMap.maxKey?_mem h))
  have hgreatest := blocks.isGreatest_max' ⟨n, hn⟩
  refine ⟨_, lastCommittedBlock_run hbuffer hcall ⟨(hblocks _).mp hgreatest.1, fun m hm => ?_⟩,
    hgreatest.2 hn⟩
  exact hgreatest.2 ((hblocks m).mpr hm)

end Calls

end WitnessHub

open WitnessHub in
/-- After any calls, the counter is the size of the store, each entry is the last payload
committed for its block, and lookups answer from the buffer first. No further call but
`unwind_above` removes the highest block. -/
theorem hub_accounts {zstd : Zstd} (hlossless : zstd.Lossless) (config : HubConfig)
    {calls : List HubCall} (hsize : (calls.map (HubCall.size zstd)).sum < 2 ^ 64) :
    let hub := calls.foldl (HubCall.run zstd config) new
    let log := calls.foldl (WitnessLog.run config) ⟨[], []⟩
    hub.readTotalBytes = weight List.length hub.cold ∧
      (∀ n value, hub.cold[n]? = some value →
        ∃ payload, lastFor n log.committed = some payload ∧ value = zstd.encodeAll payload) ∧
      (∀ n, hub.getWitness zstd n =
        match lastFor n log.buffered with
        | some payload => some payload
        | none => if n ∈ hub.cold then lastFor n log.committed else none) ∧
      ∀ call : HubCall, call.unwinds = false →
        (∀ n, IsGreatest {m | m ∈ hub.cold ∨ m ∈ (log.commits config call).map Prod.fst} n →
          (call.run zstd config hub).lastCommittedBlock = some n) ∧
        ∀ n, hub.lastCommittedBlock = some n →
          ∃ m, (call.run zstd config hub).lastCommittedBlock = some m ∧ n ≤ m := by
  intro hub log
  have haccounts : hub.Accounts zstd log _ := accounts_run hsize
  refine ⟨haccounts.bytes, haccounts.stored, haccounts.getWitness hlossless, fun call hcall => ?_⟩
  exact ⟨fun n => lastCommittedBlock_run haccounts.buffer hcall,
    fun n => lastCommittedBlock_mono haccounts.buffer hcall⟩

section Sample

open WitnessHub

/-- A code that puts one byte in front. -/
def markedZstd : Zstd where
  encodeAll payload := 0x28 :: payload
  decodeAll
    | 0x28 :: payload => some payload
    | _ => none

theorem markedZstd_lossless : markedZstd.Lossless := fun _ => rfl

/-- Block 5 is committed and then buffered again. -/
def sampleCalls : List HubCall :=
  [.pushBatched 3 [1, 2], .push 1 [9], .pushBatched 5 [4], .unwindAbove 5, .pushBatched 5 [7]]

theorem hub_accounts_buffered :
    (sampleCalls.foldl (HubCall.run markedZstd ⟨3, 2⟩) new).getWitness markedZstd 5 =
        some [7] ∧
      (sampleCalls.foldl (HubCall.run markedZstd ⟨3, 2⟩) new).readTotalBytes =
        weight List.length (sampleCalls.foldl (HubCall.run markedZstd ⟨3, 2⟩) new).cold := by
  obtain ⟨hbytes, _, hlookup, _⟩ :=
    @hub_accounts markedZstd markedZstd_lossless ⟨3, 2⟩ sampleCalls (by decide)
  exact ⟨hlookup 5, hbytes⟩

end Sample

end FluentStf.Orchestrator
