import FluentStf.Mpt.FullUpdate
import FluentStf.Mpt.Decode

/-! Tries that come with a witness. A trie that is not empty is referred to by its hash, because
keys of 32 bytes do not fit into a short reference. So a trie of the witness with the root of an
honest trie shows a part of it, as long as its nodes have the kinds that their paths say. -/
namespace FluentStf.Mpt

open Radix

section

variable {keccak : Bytes → B256}

theorem length_lt_toEncodedPath (nibs : List Nibble) (isLeaf : Bool) :
    nibs.length / 2 < (toEncodedPath nibs isLeaf).length := by
  have packed : ∀ even : List Nibble, even.length % 2 = 0 →
      even.length = 2 * (packNibs even).length := by
    intro even h
    have hlength := toNibs_length (packNibs even)
    rwa [toNibs_packNibs even h] at hlength
  rcases parity_cases nibs with h | ⟨a, rest, rfl, h⟩
  · have := packed nibs h
    rw [toEncodedPath_even h, List.length_cons]
    omega
  · have := packed rest h
    rw [toEncodedPath_odd h, List.length_cons, List.length_cons]
    omega

theorem item_length_le_encode {node : MptNode} (hnull : node ≠ .Null)
    (hdigest : node.isDigest = false) :
    (node.items keccak).flatten.length ≤ (node.encode keccak).length := by
  rw [MptNode.encode_eq_items keccak hnull hdigest]
  exact Rlp.flatten_length_le_encodeList _

/-- A short encoding is its own reference, and a hash takes 33 bytes. -/
theorem min_le_reference_length (node : MptNode) {bound : Nat}
    (h : bound ≤ (node.encode keccak).length) :
    min 32 bound ≤ (node.reference keccak).encode.length := by
  by_cases hlong : 32 ≤ (node.encode keccak).length
  · rw [MptNode.reference_of_long hlong, MptNodeReference.encode_length]
    simp only [MptNodeReference.length]
    omega
  · rw [MptNode.reference_of_short (by omega)]
    simp only [MptNodeReference.encode]
    omega

/-- The keys below a node take their space in its encoding or below a hash. -/
theorem Keyed.reference_length {n : Nat} {t : NibbleTrie} (ht : Keyed n t) (hne : t ≠ .null) :
    min 32 (n / 2 + 1) ≤ ((toNode t).reference keccak).encode.length := by
  induction t generalizing n with
  | null => exact (hne rfl).elim
  | stub d => exact (ht.opened.ne_stub d rfl).elim
  | leaf p v =>
      have hn : p.length = n := ht.length p (.inl v) (by simp [Trie.entry])
      have hpath := length_lt_toEncodedPath p true
      have hfield := Rlp.length_le_encodeBytes (toEncodedPath p true)
      have hitems := @item_length_le_encode keccak (toNode (.leaf p v)) (by simp [toNode]) rfl
      simp only [toNode, MptNode.items, List.flatten_cons, List.length_append] at hitems
      exact min_le_reference_length _ (by simp only [toNode]; omega)
  | ext p c ih =>
      obtain ⟨m, rfl⟩ := ht.ext_length
      have hc : c ≠ .null := by
        rintro rfl
        exact ht.canonical.2.1
      have hchild := ih ht.ext_child hc
      have hpath := length_lt_toEncodedPath p false
      have hfield := Rlp.length_le_encodeBytes (toEncodedPath p false)
      have hitems := @item_length_le_encode keccak (toNode (.ext p c)) (by simp [toNode]) rfl
      simp only [toNode, MptNode.items, List.flatten_cons, List.length_append] at hitems
      have hbound : min 32 ((p.length + m) / 2 + 1) ≤
          ((toNode (.ext p c)).encode keccak).length := by
        simp only [toNode]
        omega
      have := @min_le_reference_length keccak _ _ hbound
      omega
  | branch f ih =>
      obtain ⟨m, rfl⟩ := ht.branch_length
      obtain ⟨i, _, _, hi, _⟩ := ht.canonical.2
      have hchild := ih i (ht.branch_child i) hi
      have hitems := @item_length_le_encode keccak (toNode (.branch f)) (by simp [toNode]) rfl
      have hmember : ((toNode (f i)).reference keccak).encode.length + 1 ≤
          ((toNode (.branch f)).items keccak).flatten.length := by
        have hchildren : ((toNode (f i)).reference keccak).encode ∈ List.ofFn fun j =>
            ((MptNode.orNull (toChild (f j))).reference keccak).encode :=
          List.mem_ofFn.mpr ⟨i, by rw [orNull_toChild]⟩
        have hsum := (List.sublist_flatten_of_mem hchildren).length_le
        rw [toNode_branch, MptNode.items, List.flatten_append, List.length_append]
        simpa using hsum
      have hbound : min 32 ((m + 1) / 2 + 1) ≤ ((toNode (.branch f)).encode keccak).length := by
        omega
      have := @min_le_reference_length keccak _ _ hbound
      omega

/-- A trie over 32-byte keys that is not empty is referred to by its hash. -/
theorem Keyed.reference_eq_digest {t : NibbleTrie} (ht : Keyed 64 t) (hne : t ≠ .null) :
    (toNode t).reference keccak = .Digest ((toNode t).hash keccak) := by
  have hlength := @Keyed.reference_length keccak 64 t ht hne
  refine MptNode.reference_of_long (Nat.le_of_not_lt fun hshort => ?_)
  rw [MptNode.reference_of_short hshort] at hlength
  simp only [MptNodeReference.encode] at hlength
  omega

end

/-- A trie as hosts write it into a witness: every node has the kind that its path says, and the
empty trie does not stand behind its hash. -/
def Written (trie : MptNode) : Prop :=
  trie ≠ .Digest EMPTY_ROOT ∧ ∃ w : NibbleTrie, trie = toNode w

/-- Where hashes do not collide, a written trie with the root of an honest one shows a part of
it. -/
theorem Written.view {keccak : Bytes → B256} (hempty : keccak [EMPTY_STRING_CODE] = EMPTY_ROOT)
    {trie : MptNode} {t : NibbleTrie} (h : Written trie) (ht : Keyed 64 t)
    (hinj : Set.InjOn keccak
      {encoded | encoded ∈ trie.encodings keccak ++ (toNode t).encodings keccak})
    (hroot : trie.hash keccak = (toNode t).hash keccak) :
    ∃ w, trie = toNode w ∧ Trie.View (Hides keccak) w t := by
  obtain ⟨hmarker, w, rfl⟩ := h
  refine ⟨w, rfl, ?_⟩
  have htdigest := isDigest_toNode ht.opened.ne_stub
  by_cases hw : (toNode w).isDigest = false
  · apply view_of_reference ht.opened ht.fits (injOn_hashed hinj)
    rw [MptNode.reference_eq keccak hw, MptNode.reference_eq keccak htdigest,
      MptNode.encode_eq_of_hash hempty hw htdigest hinj hroot]
  · cases w with
    | stub d =>
        have hd : d = (toNode t).hash keccak := hroot
        have hne : t ≠ .null := by
          rintro rfl
          exact hmarker (congrArg MptNode.Digest hd)
        rw [hd]
        exact .stub (ht.reference_eq_digest hne)
    | null | leaf | ext | branch => exact (hw rfl).elim

/-- Only the empty trie has the empty root, as far as its hash is one of its own. -/
theorem Keyed.eq_null_of_hash {keccak : Bytes → B256} {n : Nat} {t : NibbleTrie} (ht : Keyed n t)
    (hempty : keccak [EMPTY_STRING_CODE] = EMPTY_ROOT) {hashed : Set Bytes}
    (hinj : Set.InjOn keccak hashed) (hcode : [EMPTY_STRING_CODE] ∈ hashed)
    (hencoded : (toNode t).encode keccak ∈ hashed)
    (h : (toNode t).hash keccak = EMPTY_ROOT) : t = .null := by
  have hdigest := isDigest_toNode ht.opened.ne_stub
  by_contra hne
  rw [MptNode.hash_eq keccak hempty hdigest, ← hempty] at h
  have hlist := MptNode.encode_eq_items keccak (fun hnull => hne (toNode_eq_null hnull)) hdigest
  rw [hinj hencoded hcode h] at hlist
  exact empty_ne_encodeList _ hlist

/-- A trie that is built for a map of small values. -/
theorem Builds.keyed {contents : Bytes → Option Bytes} {node : MptNode} (h : Builds contents node)
    (hsize : ∀ key value, contents key = some value → value ≠ [] ∧ value.length < 2 ^ 63) :
    ∃ t, node = toNode t ∧ Keyed 64 t := by
  obtain ⟨t, hnode, ht, hkeys⟩ := h.represents
  -- An entry is a value of the map, under one of its keys.
  have source : ∀ q x, t.entry q = some x →
      ∃ key value, q = toNibs key ∧ x = .inl value ∧ contents key = some value := by
    intro q x hq
    obtain ⟨key, rfl⟩ := ht.key q x hq
    rw [ht.entry, Option.map_eq_some_iff] at hq
    obtain ⟨value, hvalue, rfl⟩ := hq
    exact ⟨key, value, rfl, rfl, hvalue⟩
  have length : ∀ q x, t.entry q = some x → q.length = 64 := by
    intro q x hq
    obtain ⟨key, value, rfl, -, hvalue⟩ := source q x hq
    have hkey : key.length = 32 := hkeys key (by simp [hvalue])
    rw [toNibs_length, hkey]
  refine ⟨t, hnode, ht.canonical, ht.no_stub, fits_of_entry ht.canonical ?_, length, ?_⟩
  · intro q x hq
    refine ⟨by rw [length q x hq]; omega, ?_⟩
    rintro v rfl
    obtain ⟨key, value, -, hvalue, hcontents⟩ := source q _ hq
    cases hvalue
    exact (hsize key _ hcontents).2
  · intro q v hq
    obtain ⟨key, value, -, hvalue, hcontents⟩ := source q _ hq
    cases hvalue
    exact (hsize key _ hcontents).1

end FluentStf.Mpt
