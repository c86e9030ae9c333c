import FluentStf.Mpt.Refinement

/-! A trie that is only reached through its own calls is a finite map from keys
to values, as long as no key is a proper initial part of another one. -/
namespace FluentStf.Mpt

open Radix

/-- A call of the trie, by which it is compared with a map. -/
inductive Call where
  | insert (key value : Bytes)
  | delete (key : Bytes)
  | get (key : Bytes)

inductive Reply where
  | changed (result : Bool)
  | found (value : Option Bytes)
deriving DecidableEq

namespace Call

def key : Call → Bytes
  | insert key _ => key
  | delete key => key
  | get key => key

/-- Insertions must bring a value. -/
def Allowed : Call → Prop
  | insert _ value => value ≠ []
  | _ => True

instance decidableAllowed : DecidablePred Allowed
  | .insert _ value => inferInstanceAs (Decidable (value ≠ []))
  | .delete _ => isTrue trivial
  | .get _ => isTrue trivial

/-- One call on a trie, as the source performs it. -/
def run (node : MptNode) : Call → Except Fault Reply × MptNode
  | insert key value =>
      let (result, node) := node.insert key value
      (result.map .changed, node)
  | delete key =>
      let (result, node) := node.delete key
      (result.map .changed, node)
  | get key => ((node.get key).map .found, node)

/-- What the call answers on a finite map. -/
def reply (contents : Bytes → Option Bytes) : Call → Reply
  | insert key value => .changed (decide (contents key ≠ some value))
  | delete key => .changed (contents key).isSome
  | get key => .found (contents key)

/-- What the call makes of a finite map. -/
def apply (contents : Bytes → Option Bytes) : Call → Bytes → Option Bytes
  | insert key value => Function.update contents key (some value)
  | delete key => Function.update contents key none
  | get _ => contents

end Call

/-- All replies of a sequence of calls, and the trie it leaves behind. -/
def runCalls : MptNode → List Call → List (Except Fault Reply) × MptNode
  | node, [] => ([], node)
  | node, call :: calls =>
      let (answer, node) := call.run node
      let (answers, node) := runCalls node calls
      (answer :: answers, node)

theorem runCalls_append (node : MptNode) (calls more : List Call) :
    (runCalls node (calls ++ more)).2 = (runCalls (runCalls node calls).2 more).2 := by
  induction calls generalizing node with
  | nil => rfl
  | cons call calls ih => simp only [List.cons_append, runCalls, ih]

/-- A call that panics leaves the trie as it was. -/
theorem runCalls_allowed (node : MptNode) (calls : List Call) :
    (runCalls node (calls.filter fun call => call.Allowed)).2 = (runCalls node calls).2 := by
  induction calls generalizing node with
  | nil => rfl
  | cons call calls ih =>
      by_cases h : call.Allowed
      · rw [List.filter_cons_of_pos (by simpa using h)]
        exact ih (call.run node).2
      · rw [List.filter_cons_of_neg (by simpa using h), ih]
        cases call with
        | insert key value => simp [runCalls, Call.run, MptNode.insert, not_not.mp h]
        | delete key => exact absurd trivial h
        | get key => exact absurd trivial h

def replies : (Bytes → Option Bytes) → List Call → List Reply
  | _, [] => []
  | contents, call :: calls => call.reply contents :: replies (call.apply contents) calls

def applyCalls (contents : Bytes → Option Bytes) (calls : List Call) : Bytes → Option Bytes :=
  calls.foldl Call.apply contents

/-- No key is a proper initial part of another one. -/
def PrefixFree (keys : Set Bytes) : Prop := ∀ a ∈ keys, ∀ b ∈ keys, a <+: b → a = b

variable {contents : Bytes → Option Bytes} {keys : Set Bytes} {t : NibbleTrie}

theorem prefixFree_of_length {n : Nat} (h : ∀ key ∈ keys, key.length = n) :
    PrefixFree keys :=
  fun a ha b hb hab => hab.eq_of_length ((h a ha).trans (h b hb).symm)

theorem prefixFree_calls {calls : List Call} {n : Nat} (h : ∀ call ∈ calls, call.key.length = n) :
    PrefixFree {key | ∃ call ∈ calls, call.key = key} := by
  apply prefixFree_of_length (n := n)
  rintro key ⟨call, hcall, rfl⟩
  exact h call hcall

namespace MptNode

def isBranch : MptNode → Bool
  | .Branch _ => true
  | _ => false

mutual

/-- The shape of the nodes below the root. -/
def Compact : MptNode → Prop
  | .Null => False
  | .Digest _ => False
  | .Leaf _ _ => True
  | .Extension path child =>
      (∃ nibs, prefixNibs path = .ok nibs ∧ nibs ≠ []) ∧ child.isBranch ∧ child.Compact
  | .Branch children => 2 ≤ (remaining children).length ∧ ∀ i, CompactChild (children i)

def CompactChild : Option MptNode → Prop
  | none => True
  | some child => child.Compact

end

def WellFormed (node : MptNode) : Prop := node = .Null ∨ node.Compact

end MptNode

/-- Canonical tries without digests have the shape the source maintains. -/
theorem compact_toNode (ht : t.Canonical) (hne : t ≠ .null)
    (hopen : ∀ q d, t.entry q ≠ some (.inr d)) : (toNode t).Compact := by
  induction t with
  | null => exact (hne rfl).elim
  | stub d => exact (hopen [] d (by simp [Trie.entry])).elim
  | leaf p v => trivial
  | ext p c ih =>
      have hc : c ≠ .null := by
        rintro rfl
        exact ht.2.1
      have hopen' : ∀ q d, c.entry q ≠ some (.inr d) := by
        intro q d
        simpa using hopen (p ++ q) d
      refine ⟨⟨p, prefixNibs_toEncodedPath p false, ht.1⟩, ?_, ih ht.2.2 hc hopen'⟩
      cases c with
      | branch f => rfl
      | stub d => exact (hopen' [] d (by simp [Trie.entry])).elim
      | _ => exact False.elim ht.2.1
  | branch f ih =>
      obtain ⟨a, b, hab, ha, hb⟩ := ht.2
      obtain ⟨x, y, rest, hr⟩ := remaining_two hab ha hb
      rw [toNode_branch, MptNode.Compact, hr]
      refine ⟨by simp, fun i => ?_⟩
      by_cases hi : f i = .null
      · rw [hi]
        trivial
      · rw [toChild_of_ne hi]
        exact ih i (ht.1 i) hi fun q d => hopen (i :: q) d

/-- A canonical trie that holds exactly the given contents. -/
structure Represents (t : NibbleTrie) (contents : Bytes → Option Bytes) : Prop where
  canonical : t.Canonical
  entry : ∀ key, t.entry (toNibs key) = (contents key).map .inl
  key : ∀ q x, t.entry q = some x → ∃ key, q = toNibs key

namespace Represents

variable {t : NibbleTrie} {contents : Bytes → Option Bytes}

theorem empty : Represents .null fun _ => none :=
  ⟨trivial, fun _ => rfl, fun _ _ h => nomatch h⟩

variable (h : Represents t contents)

include h

/-- Nothing is hidden in a trie that represents a map. -/
theorem no_stub (q : List Nibble) (d : B256) :
    t.entry q ≠ some (.inr d) := by
  intro he
  obtain ⟨key, rfl⟩ := h.key q _ he
  rw [h.entry] at he
  cases hc : contents key <;> simp [hc] at he

theorem wellFormed : (toNode t).WellFormed := by
  by_cases hn : t = .null
  · exact .inl (by rw [hn]; rfl)
  · exact .inr (compact_toNode h.canonical hn h.no_stub)

theorem get (key : Bytes) :
    (toNode t).get key = .ok (contents key) := by
  rw [MptNode.get, getInternal_toNode, Trie.lookup_eq_entry fun q d _ => h.no_stub q d, h.entry]
  cases contents key <;> rfl

theorem free {keys : Set Bytes} (hkeys : PrefixFree keys)
    (hdom : ∀ key, contents key ≠ none → key ∈ keys) {key : Bytes} (hkey : key ∈ keys) :
    t.Free (toNibs key) := by
  intro q x hq hcomp
  obtain ⟨other, rfl⟩ := h.key q x hq
  rw [h.entry] at hq
  cases hc : contents other with
  | none => simp [hc] at hq
  | some value =>
      have hother : other ∈ keys := hdom other (by simp [hc])
      rw [toNibs_prefix_iff, toNibs_prefix_iff] at hcomp
      have hsame : other = key := by
        rcases hcomp with hle | hle
        · exact hkeys other hother key hkey hle
        · exact (hkeys key hkey other hother hle).symm
      refine ⟨by rw [hsame], value, ?_⟩
      simpa [hc] using hq.symm

/-- Setting one entry of the trie sets one entry of the map. -/
theorem update {t' : NibbleTrie} (ht' : t'.Canonical) (key : Bytes) (x : Option Bytes)
    (he : t'.entry = Function.update t.entry (toNibs key) (x.map .inl)) :
    Represents t' (Function.update contents key x) := by
  refine ⟨ht', fun other => ?_, fun q y hq => ?_⟩
  · rw [he]
    by_cases ho : other = key
    · simp [ho]
    · rw [Function.update_of_ne (toNibs_injective.ne ho), Function.update_of_ne ho, h.entry]
  · by_cases hqk : q = toNibs key
    · exact ⟨key, hqk⟩
    · rw [he, Function.update_of_ne hqk] at hq
      exact h.key q y hq

end Represents

/-- One call on a trie that represents a map. -/
theorem Call.run_represents (h : Represents t contents) (hkeys : PrefixFree keys)
    (hdom : ∀ key, contents key ≠ none → key ∈ keys) (call : Call) (hallowed : call.Allowed)
    (hkey : call.key ∈ keys) :
    ∃ t', call.run (toNode t) = (.ok (call.reply contents), toNode t') ∧
      Represents t' (call.apply contents) := by
  have hfree := h.free hkeys hdom hkey
  cases call with
  | get key => exact ⟨t, by simp [run, reply, h.get, Except.map], h⟩
  | insert key value =>
      obtain ⟨t', ht'⟩ := Trie.insert_of_free value h.canonical hfree
      obtain ⟨hcan, _, hentry⟩ := Trie.insert_spec h.canonical ht'
      refine ⟨t', ?_, h.update hcan key (some value) hentry⟩
      have hchanged : differs (t.entry (toNibs key)) value =
          decide (contents key ≠ some value) := by
        rw [h.entry]
        cases contents key <;> simp [differs]
      have hstep := insertInternal_toNode h.canonical ht'
      simp only [Call.key] at hstep
      simp [run, MptNode.insert, if_neg hallowed, hstep, hchanged, reply, Except.map]
  | delete key =>
      obtain ⟨t', ht'⟩ := Trie.delete_of_free h.canonical hfree
      obtain ⟨hcan, hentry⟩ := Trie.delete_spec h.canonical ht'
      refine ⟨t', ?_, h.update hcan key none hentry⟩
      have hstep := deleteInternal_toNode h.canonical ht'
      simp only [Call.key] at hstep
      simp [run, MptNode.delete, hstep, h.entry, reply, Except.map]

/-- The keys of a map after a call are old keys or the key of the call. -/
theorem Call.apply_domain (hdom : ∀ key, contents key ≠ none → key ∈ keys) (call : Call)
    (hkey : call.key ∈ keys) (key : Bytes) (h : call.apply contents key ≠ none) : key ∈ keys := by
  by_cases hk : key = call.key
  · rwa [hk]
  · apply hdom
    cases call with
    | get _ => exact h
    | insert other value =>
        have hne : key ≠ other := hk
        rwa [apply, Function.update_of_ne hne] at h
    | delete other =>
        have hne : key ≠ other := hk
        rwa [apply, Function.update_of_ne hne] at h

/-- Every sequence of calls answers like a map and keeps representing one. -/
theorem runCalls_represents (h : Represents t contents) (hkeys : PrefixFree keys)
    (hdom : ∀ key, contents key ≠ none → key ∈ keys) (calls : List Call)
    (hcalls : ∀ call ∈ calls, call.Allowed ∧ call.key ∈ keys) :
    ∃ t', runCalls (toNode t) calls = ((replies contents calls).map .ok, toNode t') ∧
      Represents t' (applyCalls contents calls) := by
  induction calls generalizing t contents with
  | nil => exact ⟨t, rfl, h⟩
  | cons call calls ih =>
      obtain ⟨hallowed, hkey⟩ := hcalls call (by simp)
      obtain ⟨t', hrun, ht'⟩ := Call.run_represents h hkeys hdom call hallowed hkey
      obtain ⟨t'', hrest, ht''⟩ := ih ht' (Call.apply_domain hdom call hkey)
        fun c hc => hcalls c (.tail _ hc)
      refine ⟨t'', ?_, ht''⟩
      simp [runCalls, hrun, hrest, replies]

/-- The trie is a finite map: on every sequence of calls from the empty trie,
over keys none of which is a proper initial part of another, every call
succeeds with the answer of the map, and the shape is kept after every call. -/
theorem trie_is_finite_map (calls : List Call) (hallowed : ∀ call ∈ calls, call.Allowed)
    (hkeys : PrefixFree {key | ∃ call ∈ calls, call.key = key}) :
    (runCalls .Null calls).1 = (replies (fun _ => none) calls).map .ok ∧
      ∀ n, (runCalls .Null (calls.take n)).2.WellFormed := by
  have run : ∀ n, ∃ t', runCalls .Null (calls.take n) =
      ((replies (fun _ => none) (calls.take n)).map .ok, toNode t') ∧
        Represents t' (applyCalls (fun _ => none) (calls.take n)) := by
    intro n
    apply runCalls_represents Represents.empty hkeys (fun _ h => False.elim (h rfl))
    intro call hc
    have hmem := List.mem_of_mem_take hc
    exact ⟨hallowed call hmem, call, hmem, rfl⟩
  constructor
  · obtain ⟨t', hrun, _⟩ := run calls.length
    rw [List.take_length] at hrun
    rw [hrun]
  · intro n
    obtain ⟨t', hrun, ht'⟩ := run n
    rw [hrun]
    exact ht'.wellFormed

/-- Two keys with a common part, one of which is deleted again. -/
def sampleCalls : List Call :=
  [.insert [0x12] [1], .insert [0x13] [2], .delete [0x12], .get [0x13], .get [0x12]]

theorem trie_is_finite_map_sample :
    (runCalls .Null sampleCalls).1 = [.ok (.changed true), .ok (.changed true),
      .ok (.changed true), .ok (.found (some [2])), .ok (.found none)] ∧
      ∀ n, (runCalls .Null (sampleCalls.take n)).2.WellFormed := by
  have hallowed : ∀ call ∈ sampleCalls, call.Allowed := by
    simp [sampleCalls, Call.Allowed]
  have hkeys : PrefixFree {key | ∃ call ∈ sampleCalls, call.key = key} :=
    prefixFree_calls (n := 1) (by simp [sampleCalls, Call.key])
  obtain ⟨hreplies, hshape⟩ := trie_is_finite_map sampleCalls hallowed hkeys
  exact ⟨hreplies.trans (by decide), hshape⟩

end FluentStf.Mpt
