import FluentStf.Mpt.FiniteMap
import FluentStf.Mpt.PartialView

/-! The root hash of a trie depends on its contents only and determines them. -/
namespace FluentStf.Mpt

open Radix

/-- The finite map that a sequence of calls leaves behind. -/
def contentsOf (calls : List Call) : Bytes → Option Bytes := applyCalls (fun _ => none) calls

/-- The trie that a sequence of calls leaves behind. -/
def trieOf (calls : List Call) : MptNode := (runCalls .Null calls).2

/-- Keys whose nibbles, and values whose bytes, fit in a vector of the source. -/
def Call.Fits : Call → Prop
  | .insert key value => 2 * key.length < 2 ^ 63 ∧ value.length < 2 ^ 63
  | _ => True

/-- Every value of the final map was brought by one of the calls. -/
theorem insert_mem_of_contents {calls : List Call} {key value : Bytes}
    (h : contentsOf calls key = some value) : .insert key value ∈ calls := by
  have run : ∀ (calls : List Call) (contents : Bytes → Option Bytes),
      applyCalls contents calls key = some value →
        contents key = some value ∨ .insert key value ∈ calls := by
    intro calls
    induction calls with
    | nil => exact fun _ h => .inl h
    | cons call calls ih =>
        intro contents h
        rcases ih (call.apply contents) h with hc | hmem
        · cases call with
          | get other => exact .inl hc
          | insert other w =>
              by_cases ho : key = other
              · subst ho
                simp only [Call.apply, Function.update_self, Option.some.injEq] at hc
                exact .inr (by simp [hc])
              · exact .inl (by simpa [Call.apply, ho] using hc)
          | delete other =>
              by_cases ho : key = other
              · simp [Call.apply, ho] at hc
              · exact .inl (by simpa [Call.apply, ho] using hc)
        · exact .inr (.tail _ hmem)
  rcases run calls _ h with hnone | hmem
  · cases hnone
  · exact hmem

namespace Represents

variable {s t : NibbleTrie} {contents : Bytes → Option Bytes}

/-- A map has one trie. -/
theorem unique (hs : Represents s contents) (ht : Represents t contents) : s = t := by
  apply hs.canonical.eq_of_entry ht.canonical
  funext q
  cases hq : s.entry q with
  | some x =>
      obtain ⟨key, rfl⟩ := hs.key q x hq
      rw [← hq, hs.entry, ht.entry]
  | none =>
      cases hq' : t.entry q with
      | none => rfl
      | some x =>
          obtain ⟨key, rfl⟩ := ht.key q x hq'
          rw [hs.entry, ← ht.entry, hq'] at hq
          cases hq

/-- A trie has one map. -/
theorem contents_eq {contents' : Bytes → Option Bytes} (h : Represents t contents)
    (h' : Represents t contents') : contents = contents' := by
  funext key
  have hsame := (h.entry key).symm.trans (h'.entry key)
  exact Option.map_injective Sum.inl_injective hsame

theorem fits {calls : List Call} (h : Represents t (contentsOf calls))
    (hcalls : ∀ call ∈ calls, call.Fits) : Fits t := by
  apply fits_of_entry h.canonical
  intro q x hq
  obtain ⟨key, rfl⟩ := h.key q x hq
  rw [h.entry, Option.map_eq_some_iff] at hq
  obtain ⟨value, hvalue, rfl⟩ := hq
  obtain ⟨hkey, hlength⟩ := hcalls _ (insert_mem_of_contents hvalue)
  refine ⟨by rwa [toNibs_length], ?_⟩
  rintro v ⟨⟩
  exact hlength

/-- Tries with one root hash have one map. -/
theorem contents_eq_of_hash {contents' : Bytes → Option Bytes} {keccak : Bytes → B256}
    (hs : Represents s contents) (ht : Represents t contents') (hfits : Fits t)
    (hempty : keccak [EMPTY_STRING_CODE] = EMPTY_ROOT)
    (hinj : Set.InjOn keccak {encoded |
      encoded ∈ (toNode s).encodings keccak ++ (toNode t).encodings keccak})
    (hhash : (toNode s).hash keccak = (toNode t).hash keccak) : contents = contents' := by
  have hsdigest := isDigest_toNode (Open.ne_stub hs.no_stub)
  have htdigest := isDigest_toNode (Open.ne_stub ht.no_stub)
  have hencode := MptNode.encode_eq_of_hash hempty hsdigest htdigest hinj hhash
  have hreference : (toNode s).reference keccak = (toNode t).reference keccak := by
    rw [MptNode.reference_eq keccak hsdigest, hencode, ← MptNode.reference_eq keccak htdigest]
  obtain rfl := view_eq hs.no_stub
    (view_of_reference ht.no_stub hfits (injOn_hashed hinj) hreference)
  exact hs.contents_eq ht

end Represents

/-- Any sequence of calls over a prefix-free set of keys ends in the trie of its map. -/
theorem trieOf_represents (calls : List Call) {keys : Set Bytes} (hkeys : PrefixFree keys)
    (hcalls : ∀ call ∈ calls, call.Allowed ∧ call.key ∈ keys) :
    ∃ t, trieOf calls = toNode t ∧ Represents t (contentsOf calls) := by
  obtain ⟨t, hrun, ht⟩ :=
    runCalls_represents Represents.empty hkeys (fun _ h => False.elim (h rfl)) calls hcalls
  have hnode : trieOf calls = toNode t := congrArg Prod.snd hrun
  exact ⟨t, hnode, ht⟩

/-- The root hash depends on the contents only, and determines them: two
sequences of calls over one prefix-free set of keys that end in the same map end
in the same trie, and two that end in different maps have different hashes. -/
theorem root_hash_determines_contents (keccak : Bytes → B256) (first second : List Call)
    (hallowed : ∀ call ∈ first ++ second, call.Allowed)
    (hkeys : PrefixFree {key | ∃ call ∈ first ++ second, call.key = key}) :
    (contentsOf first = contentsOf second →
      trieOf first = trieOf second ∧ (trieOf first).hash keccak = (trieOf second).hash keccak) ∧
    ((∀ call ∈ first ++ second, call.Fits) →
      keccak [EMPTY_STRING_CODE] = EMPTY_ROOT →
      Set.InjOn keccak {encoded |
        encoded ∈ (trieOf first).encodings keccak ++ (trieOf second).encodings keccak} →
      contentsOf first ≠ contentsOf second →
      (trieOf first).hash keccak ≠ (trieOf second).hash keccak) := by
  obtain ⟨s, hs, hsmap⟩ := trieOf_represents first hkeys fun call hc =>
    ⟨hallowed call (List.mem_append_left _ hc), call, List.mem_append_left _ hc, rfl⟩
  obtain ⟨t, ht, htmap⟩ := trieOf_represents second hkeys fun call hc =>
    ⟨hallowed call (List.mem_append_right _ hc), call, List.mem_append_right _ hc, rfl⟩
  rw [hs, ht]
  constructor
  · intro hsame
    rw [hsame] at hsmap
    rw [hsmap.unique htmap]
    exact ⟨rfl, rfl⟩
  · intro hfits hempty hinj hdiffer hhash
    have htfits := htmap.fits fun call hc => hfits call (List.mem_append_right _ hc)
    exact hdiffer (hsmap.contents_eq_of_hash htmap htfits hempty hinj hhash)

/-- Keccak-256 of the empty string code and of two leaves. -/
def leafDigests : List (Bytes × B256) :=
  [([EMPTY_STRING_CODE], EMPTY_ROOT),
    ([0xc4, 0x82, 0x20, 0x12, 0x01],
      .ofNat 0x2de332538c255946ed2004d4ffd707d8952bfe28bd6a3e5dc5680b63a498f62c),
    ([0xc4, 0x82, 0x20, 0x12, 0x02],
      .ofNat 0xe1673982050b3f23078917f8142871a74bb2afe5cc70d3eaf78102729309fdf3)]

theorem root_hash_determines_contents_sample :
    trieOf [.insert [0x12] [1], .insert [0x13] [2], .delete [0x13]] = trieOf [.insert [0x12] [1]] ∧
      (trieOf [.insert [0x12] [1]]).hash (tableHash leafDigests) ≠
        (trieOf [.insert [0x12] [2]]).hash (tableHash leafDigests) := by
  constructor
  · refine ((root_hash_determines_contents (tableHash leafDigests) _ _ ?_ ?_).1 ?_).1
    · simp [Call.Allowed]
    · exact prefixFree_calls (n := 1) (by simp [Call.key])
    · funext key
      by_cases h : key = [0x13] <;> simp [contentsOf, applyCalls, Call.apply, h]
  · refine (root_hash_determines_contents (tableHash leafDigests) _ _ ?_ ?_).2 ?_ ?_ ?_ ?_
    · simp [Call.Allowed]
    · exact prefixFree_calls (n := 1) (by simp [Call.key])
    · simp [Call.Fits]
    · decide
    · exact injOn_tableHash (by decide) (by decide)
    · intro h
      have := congrFun h [0x12]
      simp [contentsOf, applyCalls, Call.apply] at this

end FluentStf.Mpt
