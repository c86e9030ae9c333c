import FluentStf.Mpt.Refinement
import Mathlib.Algebra.Order.BigOperators.Group.List

/-! What the encoding of a node tells about the node. The RLP form of a branch,
a leaf or an extension is a list of items, and references of nodes are items
themselves. A node whose encoding is that of an honest trie has the same items,
but the kind of a two-item node is known only from its path bytes. -/
namespace FluentStf.Mpt

open Radix Rlp MptNode

theorem encodeChild_length (reference : Option MptNodeReference) :
    (encodeChild reference).length = childLength reference := by
  cases reference with
  | none => rfl
  | some r => exact r.encode_length

namespace MptNode

def isDigest : MptNode → Bool
  | .Digest _ => true
  | _ => false

/-- An absent child counts as the empty node. -/
def orNull (child : Option MptNode) : MptNode := child.getD .Null

section

variable (keccak : Bytes → B256)

theorem encodeChild_eq (child : Option MptNode) :
    encodeChild (child.map (reference keccak)) = ((orNull child).reference keccak).encode := by
  cases child <;> rfl

/-- The items of the list that encodes a node with contents. -/
def items : MptNode → List Bytes
  | .Branch children =>
      (List.ofFn fun i => ((orNull (children i)).reference keccak).encode) ++ [[EMPTY_STRING_CODE]]
  | .Leaf path value => [encodeBytes path, encodeBytes value]
  | .Extension path child => [encodeBytes path, (child.reference keccak).encode]
  | _ => []

theorem encode_branch (children : Nibble → Option MptNode) :
    (Branch children).encode keccak = encodeList ((Branch children).items keccak) := by
  have hlength : ∀ i, childLength ((children i).map (reference keccak)) =
      (((orNull (children i)).reference keccak).encode).length := by
    intro i
    rw [← encodeChild_eq, encodeChild_length]
  have hsum : (List.ofFn fun i => childLength ((children i).map (reference keccak))).sum =
      (List.ofFn fun i => ((orNull (children i)).reference keccak).encode).flatten.length := by
    simp only [hlength, List.length_flatten, List.map_ofFn, Function.comp_def]
  simp only [encode, encodeBranch, encodeList, items, encodeChild_eq, hsum, List.flatten_append,
    List.flatten_cons, List.flatten_nil, List.append_nil, List.length_append, List.length_cons,
    List.length_nil, List.append_assoc, Nat.zero_add, Nat.add_comm 1]

theorem encode_leaf (path value : Bytes) :
    (Leaf path value).encode keccak = encodeList ((Leaf path value).items keccak) := by
  simp [encode, encodeLeaf, encodeList, items]

theorem encode_extension (path : Bytes) (child : MptNode) :
    (Extension path child).encode keccak = encodeList ((Extension path child).items keccak) := by
  simp [encode, encodeExtension, encodeList, items, MptNodeReference.encode_length]

variable {node : MptNode}

/-- Nodes with contents are encoded as lists. -/
theorem encode_eq_items (hnull : node ≠ .Null) (hdigest : node.isDigest = false) :
    node.encode keccak = encodeList (node.items keccak) := by
  cases node with
  | Null => exact (hnull rfl).elim
  | Digest d => cases hdigest
  | Branch children => exact encode_branch keccak children
  | Leaf path value => exact encode_leaf keccak path value
  | Extension path child => exact encode_extension keccak path child

theorem reference_eq (hdigest : node.isDigest = false) :
    node.reference keccak = referenceOf keccak (node.encode keccak) := by
  cases node with
  | Null => rfl
  | Digest d => cases hdigest
  | Branch children => exact reference_branch keccak children
  | Leaf path value => rfl
  | Extension path child => rfl

/-- The root hash is the hash of the encoding, for the empty node as well. -/
theorem hash_eq (hempty : keccak [EMPTY_STRING_CODE] = EMPTY_ROOT)
    (hdigest : node.isDigest = false) : node.hash keccak = keccak (node.encode keccak) := by
  have hreference := reference_eq keccak hdigest
  cases node with
  | Null => exact hempty.symm
  | Digest d => cases hdigest
  | _ =>
      simp only [hash, hreference, referenceOf]
      split_ifs <;> rfl

/-- A reference is a digest, the empty string, or a short list. -/
theorem reference_cases (node : MptNode) :
    (∃ digest, node.reference keccak = .Digest digest) ∨
      (node = .Null ∧ node.reference keccak = .Bytes [EMPTY_STRING_CODE]) ∨
      ∃ items, node.reference keccak = .Bytes (encodeList items) ∧
        (encodeList items).length < 32 := by
  by_cases hdigest : node.isDigest = false
  · by_cases hnull : node = .Null
    · exact .inr (.inl ⟨hnull, by rw [hnull]; rfl⟩)
    · rw [reference_eq keccak hdigest, referenceOf, encode_eq_items keccak hnull hdigest]
      split
      · exact .inr (.inr ⟨_, rfl, by assumption⟩)
      · exact .inl ⟨_, rfl⟩
  · cases node with
    | Digest d => exact .inl ⟨d, rfl⟩
    | _ => exact (hdigest rfl).elim

theorem digest_encode (digest : B256) :
    (MptNodeReference.Digest digest).encode = encodeBytes digest.bytes := by
  have hlength := digest.length_eq
  match h : digest.bytes with
  | [] => simp [h] at hlength
  | [_] => simp [h] at hlength
  | a :: b :: rest =>
      rw [h] at hlength
      simp only [MptNodeReference.encode, h, encodeBytes, hlength]
      rfl

theorem reference_isItem (node : MptNode) : Rlp.IsItem (node.reference keccak).encode := by
  rcases reference_cases keccak node with ⟨d, h⟩ | ⟨_, h⟩ | ⟨items, h, hshort⟩
  · rw [h, digest_encode]
    exact encodeBytes_isItem _ (by simp [d.length_eq])
  · rw [h]
    exact encodeBytes_isItem [] (by simp)
  · rw [h]
    have := flatten_length_le_encodeList items
    exact encodeList_isItem (by omega)

theorem reference_length_le (node : MptNode) : (node.reference keccak).encode.length ≤ 33 := by
  rcases reference_cases keccak node with ⟨d, h⟩ | ⟨_, h⟩ | ⟨items, h, hshort⟩
  · rw [h, MptNodeReference.encode_length]
    simp [MptNodeReference.length]
  · rw [h]
    simp [MptNodeReference.encode]
  · rw [h, MptNodeReference.encode]
    omega

variable {keccak}

/-- Digests and inlined encodings differ in length. -/
theorem reference_encode_inj {m n : MptNode}
    (h : (m.reference keccak).encode = (n.reference keccak).encode) :
    m.reference keccak = n.reference keccak := by
  have short : ∀ (node : MptNode) (bytes : Bytes), node.reference keccak = .Bytes bytes →
      bytes.length < 32 := by
    intro node bytes hb
    rcases reference_cases keccak node with ⟨d, h⟩ | ⟨_, h⟩ | ⟨items, h, hshort⟩ <;>
      rw [h] at hb <;> cases hb
    · simp
    · exact hshort
  have hlength := congrArg List.length h
  rw [MptNodeReference.encode_length, MptNodeReference.encode_length] at hlength
  cases hm : m.reference keccak with
  | Bytes a =>
      have ha := short m a hm
      cases hn : n.reference keccak with
      | Bytes b => rw [hm, hn] at h; exact congrArg _ h
      | Digest d => simp [hm, hn, MptNodeReference.length] at hlength; omega
  | Digest c =>
      cases hn : n.reference keccak with
      | Bytes b =>
          have hb := short n b hn
          simp [hm, hn, MptNodeReference.length] at hlength
          omega
      | Digest d =>
          rw [hm, hn] at h
          exact congrArg _ (B256.ext (List.cons.inj h).2)

/-- The only strings that are also references are digests and the empty string. -/
theorem string_eq_reference {value : Bytes} (hv : value.length < 2 ^ 64)
    (h : encodeBytes value = (node.reference keccak).encode) :
    (value = [] ∧ node = .Null) ∨
      ∃ digest, node.reference keccak = .Digest digest ∧ value = digest.bytes := by
  rcases reference_cases keccak node with ⟨d, hd⟩ | ⟨hnull, hb⟩ | ⟨items, hi, hshort⟩
  · rw [hd, digest_encode] at h
    exact .inr ⟨d, hd, encodeBytes_inj hv (by simp [d.length_eq]) h⟩
  · rw [hb] at h
    exact .inl ⟨encodeBytes_inj hv (by simp) (h.trans (b := encodeBytes []) rfl), hnull⟩
  · rw [hi] at h
    have := flatten_length_le_encodeList items
    exact (encodeBytes_ne_encodeList hv (by omega) h).elim

theorem items_isItem (node : MptNode) (h : (node.items keccak).flatten.length < 2 ^ 64) :
    ∀ item ∈ node.items keccak, Rlp.IsItem item := by
  cases node with
  | Null => simp [items]
  | Digest d => simp [items]
  | Branch children =>
      intro item hitem
      simp only [items, List.mem_append, List.mem_ofFn, List.mem_singleton] at hitem
      rcases hitem with ⟨i, rfl⟩ | rfl
      · exact reference_isItem keccak _
      · exact encodeBytes_isItem [] (by simp)
  | Leaf path value =>
      simp only [items, List.flatten_cons, List.flatten_nil, List.length_append] at h
      have hp := length_le_encodeBytes path
      have hv := length_le_encodeBytes value
      intro item hitem
      simp only [items, List.mem_cons, List.not_mem_nil, or_false] at hitem
      rcases hitem with rfl | rfl
      · exact encodeBytes_isItem _ (by omega)
      · exact encodeBytes_isItem _ (by omega)
  | Extension path child =>
      simp only [items, List.flatten_cons, List.flatten_nil, List.length_append] at h
      have hp := length_le_encodeBytes path
      intro item hitem
      simp only [items, List.mem_cons, List.not_mem_nil, or_false] at hitem
      rcases hitem with rfl | rfl
      · exact encodeBytes_isItem _ (by omega)
      · exact reference_isItem keccak child

end

section

variable (keccak : Bytes → B256)

mutual

/-- The encodings of all nodes of a tree, which is all that gets hashed. -/
def encodings : MptNode → List Bytes
  | .Null => [[EMPTY_STRING_CODE]]
  | .Branch children =>
      encodeBranch (fun i => childReference keccak (children i)) ::
        (List.ofFn fun i => childEncodings (children i)).flatten
  | .Leaf path value => [encodeLeaf path value]
  | .Extension path child =>
      encodeExtension path (child.reference keccak) :: child.encodings
  | .Digest _ => []

def childEncodings : Option MptNode → List Bytes
  | none => []
  | some child => child.encodings

end

theorem encode_mem_encodings {node : MptNode} (hdigest : node.isDigest = false) :
    node.encode keccak ∈ node.encodings keccak := by
  cases node with
  | Digest d => cases hdigest
  | Branch children => simp [encodings, encode, childReference_eq]
  | _ => simp [encodings, encode]

theorem encodings_extension (path : Bytes) (child : MptNode) :
    child.encodings keccak ⊆ (Extension path child).encodings keccak := by
  simp [encodings]

theorem encodings_branch {children : Nibble → Option MptNode} {i : Nibble} {child : MptNode}
    (h : children i = some child) :
    child.encodings keccak ⊆ (Branch children).encodings keccak := by
  intro encoded hmem
  simp only [encodings, List.mem_cons, List.mem_flatten, List.mem_ofFn]
  exact .inr ⟨_, ⟨i, rfl⟩, by simpa [h, childEncodings] using hmem⟩

/-- References hash the encodings of 32 bytes and more. -/
def hashed (encodings : List Bytes) : List Bytes :=
  encodings.filter fun encoded => 32 ≤ encoded.length

theorem mem_hashed {encodings : List Bytes} {encoded : Bytes} :
    encoded ∈ hashed encodings ↔ encoded ∈ encodings ∧ 32 ≤ encoded.length := by
  simp [hashed]

variable {keccak}

/-- Where the hash function does not collide, equal references come from equal
encodings. -/
theorem encode_eq_of_reference {m n : MptNode} (hm : m.isDigest = false) (hn : n.isDigest = false)
    (hinj : Set.InjOn keccak
      {encoded | encoded ∈ hashed (m.encodings keccak ++ n.encodings keccak)})
    (h : m.reference keccak = n.reference keccak) : m.encode keccak = n.encode keccak := by
  have hmem : m.encode keccak ∈ m.encodings keccak ++ n.encodings keccak :=
    List.mem_append_left _ (encode_mem_encodings keccak hm)
  have hmem' : n.encode keccak ∈ m.encodings keccak ++ n.encodings keccak :=
    List.mem_append_right _ (encode_mem_encodings keccak hn)
  rw [reference_eq keccak hm, reference_eq keccak hn, referenceOf, referenceOf] at h
  split_ifs at h with hshort hshort' hshort'
  · exact MptNodeReference.Bytes.inj h
  · exact hinj (mem_hashed.mpr ⟨hmem, by omega⟩) (mem_hashed.mpr ⟨hmem', by omega⟩)
      (MptNodeReference.Digest.inj h)

theorem encode_eq_of_hash {m n : MptNode} (hempty : keccak [EMPTY_STRING_CODE] = EMPTY_ROOT)
    (hm : m.isDigest = false) (hn : n.isDigest = false)
    (hinj : Set.InjOn keccak {encoded | encoded ∈ m.encodings keccak ++ n.encodings keccak})
    (h : m.hash keccak = n.hash keccak) : m.encode keccak = n.encode keccak := by
  rw [hash_eq keccak hempty hm, hash_eq keccak hempty hn] at h
  exact hinj (List.mem_append_left _ (encode_mem_encodings keccak hm))
    (List.mem_append_right _ (encode_mem_encodings keccak hn)) h

end

end MptNode

/-- Sizes that vectors of the source can have. -/
def Fits : NibbleTrie → Prop
  | .leaf path value => path.length < 2 ^ 63 ∧ value.length < 2 ^ 63
  | .ext path child => path.length < 2 ^ 63 ∧ Fits child
  | .branch children => ∀ i, Fits (children i)
  | _ => True

/-- A trie fits when its entries do. -/
theorem fits_of_entry {t : NibbleTrie} (ht : t.Canonical)
    (h : ∀ q x, t.entry q = some x → q.length < 2 ^ 63 ∧ ∀ v, x = .inl v → v.length < 2 ^ 63) :
    Fits t := by
  induction t with
  | null => trivial
  | stub d => trivial
  | leaf p v =>
      obtain ⟨hp, hv⟩ := h p (.inl v) (by simp [Trie.entry])
      exact ⟨hp, hv v rfl⟩
  | ext p c ih =>
      have hc : c ≠ .null := by
        rintro rfl
        exact ht.2.1
      obtain ⟨q, x, hq⟩ := ht.2.2.exists_entry hc
      have hpq := (h (p ++ q) x (by simpa using hq)).1
      rw [List.length_append] at hpq
      refine ⟨by omega, ih ht.2.2 fun q x hq => ?_⟩
      obtain ⟨hlength, hv⟩ := h (p ++ q) x (by simpa using hq)
      rw [List.length_append] at hlength
      exact ⟨by omega, hv⟩
  | branch f ih =>
      intro i
      apply ih i (ht.1 i)
      intro q x hq
      obtain ⟨hlength, hv⟩ := h (i :: q) x hq
      rw [List.length_cons] at hlength
      exact ⟨by omega, hv⟩

theorem isDigest_toNode {t : NibbleTrie} (h : ∀ d, t ≠ .stub d) :
    (toNode t).isDigest = false := by
  cases t with
  | stub d => exact (h d rfl).elim
  | _ => rfl

@[simp] theorem orNull_toChild (t : NibbleTrie) : orNull (toChild t) = toNode t := by
  by_cases h : t = .null
  · rw [h]
    rfl
  · rw [toChild_of_ne h]
    rfl

section

variable (keccak : Bytes → B256) {t : NibbleTrie}

theorem items_toNode_length (ht : Fits t) :
    ((toNode t).items keccak).flatten.length + 9 < 2 ^ 64 := by
  cases t with
  | null => simp [toNode, items]
  | stub d => simp [toNode, items]
  | leaf p v =>
      have hp := toEncodedPath_length p true
      obtain ⟨hfp, hfv⟩ : p.length < 2 ^ 63 ∧ v.length < 2 ^ 63 := ht
      have h1 := encodeBytes_length_le (toEncodedPath p true) (by omega)
      have h2 := encodeBytes_length_le v (by omega)
      simp only [toNode, items, List.flatten_cons, List.flatten_nil, List.length_append,
        List.length_nil]
      omega
  | ext p c =>
      have hp := toEncodedPath_length p false
      have hfp : p.length < 2 ^ 63 := ht.1
      have h1 := encodeBytes_length_le (toEncodedPath p false) (by omega)
      have h2 := reference_length_le keccak (toNode c)
      simp only [toNode, items, List.flatten_cons, List.flatten_nil, List.length_append,
        List.length_nil]
      omega
  | branch f =>
      have hsum : (List.ofFn fun i =>
          ((toNode (f i)).reference keccak).encode.length).sum ≤ 16 * 33 := by
        refine (List.sum_le_card_nsmul _ 33 fun n hn => ?_).trans (by simp)
        obtain ⟨i, rfl⟩ := List.mem_ofFn.mp hn
        exact reference_length_le keccak _
      simp only [toNode_branch, items, orNull_toChild, List.flatten_append,
        List.length_append, List.length_flatten, List.map_ofFn, Function.comp_def]
      simp only [List.map_cons, List.map_nil, List.sum_cons, List.sum_nil, List.length_cons,
        List.length_nil]
      omega

/-- All the ways in which a node can have the encoding of a trie. A leaf can
pass for an extension and an extension for a leaf, when the value of the leaf is
the reference of the child. -/
inductive Mimics : MptNode → NibbleTrie → Prop
  | null : Mimics .Null .null
  | branch {children : Nibble → Option MptNode} {f : Nibble → NibbleTrie}
      (h : ∀ i, (orNull (children i)).reference keccak = (toNode (f i)).reference keccak) :
      Mimics (.Branch children) (.branch f)
  | leaf (p : List Nibble) (v : Bytes) : Mimics (.Leaf (toEncodedPath p true) v) (.leaf p v)
  | extension {child : MptNode} {p : List Nibble} {c : NibbleTrie}
      (h : child.reference keccak = (toNode c).reference keccak) :
      Mimics (.Extension (toEncodedPath p false) child) (.ext p c)
  | extensionForLeaf {child : MptNode} {p : List Nibble} {v : Bytes}
      (h : encodeBytes v = (child.reference keccak).encode) :
      Mimics (.Extension (toEncodedPath p true) child) (.leaf p v)
  | leafForExtension {v : Bytes} {p : List Nibble} {c : NibbleTrie}
      (hv : v.length < 2 ^ 64) (h : encodeBytes v = ((toNode c).reference keccak).encode) :
      Mimics (.Leaf (toEncodedPath p false) v) (.ext p c)

variable {keccak}

theorem empty_ne_encodeList (items : List Bytes) : [EMPTY_STRING_CODE] ≠ encodeList items := by
  intro h
  have hlength := flatten_length_le_encodeList items
  rw [← h, List.length_singleton] at hlength
  have hempty : encodeBytes [] = encodeList items := h
  exact encodeBytes_ne_encodeList (by simp) (by omega) hempty

/-- The items of a node are determined by its encoding. -/
theorem items_eq_of_encode {w : MptNode} (hfits : Fits t) (hstub : ∀ d, t ≠ .stub d)
    (hw : w.isDigest = false) (h : w.encode keccak = (toNode t).encode keccak) :
    (t = .null ∧ w = .Null) ∨
      (t ≠ .null ∧ w ≠ .Null ∧ w.items keccak = (toNode t).items keccak) := by
  have ht := isDigest_toNode hstub
  by_cases hnull : t = .null
  · refine .inl ⟨hnull, ?_⟩
    by_contra hne
    rw [encode_eq_items keccak hne hw, hnull] at h
    exact empty_ne_encodeList _ h.symm
  · have htnode : toNode t ≠ .Null := by
      cases t <;> simp [toNode] at hnull ⊢
    rw [encode_eq_items keccak htnode ht] at h
    have hne : w ≠ .Null := by
      rintro rfl
      exact empty_ne_encodeList _ h
    rw [encode_eq_items keccak hne hw] at h
    refine .inr ⟨hnull, hne, ?_⟩
    have hsize := items_toNode_length keccak hfits
    exact encodeList_inj_of_fits hsize (items_isItem w)
      (items_isItem _ (by omega)) h

/-- A path item of an honest node determines the path bytes. -/
private theorem path_eq_of_item {path : Bytes} {p : List Nibble} {isLeaf : Bool}
    (hp : p.length < 2 ^ 63)
    (h : encodeBytes path = encodeBytes (toEncodedPath p isLeaf)) :
    path = toEncodedPath p isLeaf := by
  have hlength := toEncodedPath_length p isLeaf
  have h1 := length_le_encodeBytes path
  have h2 := encodeBytes_length_le (toEncodedPath p isLeaf) (by omega)
  rw [h] at h1
  exact encodeBytes_inj (by omega) (by omega) h

theorem mimics_of_encode {w : MptNode} (hfits : Fits t) (hstub : ∀ d, t ≠ .stub d)
    (hw : w.isDigest = false) (h : w.encode keccak = (toNode t).encode keccak) :
    Mimics keccak w t := by
  rcases items_eq_of_encode hfits hstub hw h with ⟨rfl, rfl⟩ | ⟨htnull, hwnull, hitems⟩
  · exact .null
  cases t with
  | null => exact (htnull rfl).elim
  | stub d => exact (hstub d rfl).elim
  | branch f =>
      have hlength := congrArg List.length hitems
      cases w with
      | Branch children =>
          refine .branch fun i => reference_encode_inj ?_
          simp only [toNode_branch, items, orNull_toChild] at hitems
          exact congrFun (List.ofFn_injective (List.append_cancel_right hitems)) i
      | Null => exact (hwnull rfl).elim
      | Digest d => cases hw
      | Leaf path value => simp [toNode_branch, items] at hlength
      | Extension path child => simp [toNode_branch, items] at hlength
  | leaf p v =>
      have hlength := congrArg List.length hitems
      obtain ⟨hfp, hfv⟩ : p.length < 2 ^ 63 ∧ v.length < 2 ^ 63 := hfits
      cases w with
      | Branch children => simp [toNode, items] at hlength
      | Null => exact (hwnull rfl).elim
      | Digest d => cases hw
      | Leaf path value =>
          simp only [toNode, items, List.cons.injEq, and_true] at hitems
          have hvalue : value = v := by
            have h1 := length_le_encodeBytes value
            have h2 := encodeBytes_length_le v (by omega)
            rw [hitems.2] at h1
            exact encodeBytes_inj (by omega) (by omega) hitems.2
          rw [path_eq_of_item hfp hitems.1, hvalue]
          exact .leaf p v
      | Extension path child =>
          simp only [toNode, items, List.cons.injEq, and_true] at hitems
          rw [path_eq_of_item hfp hitems.1]
          exact .extensionForLeaf hitems.2.symm
  | ext p c =>
      have hlength := congrArg List.length hitems
      have hfp : p.length < 2 ^ 63 := hfits.1
      cases w with
      | Branch children => simp [toNode, items] at hlength
      | Null => exact (hwnull rfl).elim
      | Digest d => cases hw
      | Leaf path value =>
          simp only [toNode, items, List.cons.injEq, and_true] at hitems
          have h1 := length_le_encodeBytes value
          have h2 := reference_length_le keccak (toNode c)
          rw [hitems.2] at h1
          rw [path_eq_of_item hfp hitems.1]
          exact .leafForExtension (by omega) hitems.2
      | Extension path child =>
          simp only [toNode, items, List.cons.injEq, and_true] at hitems
          rw [path_eq_of_item hfp hitems.1]
          exact .extension (reference_encode_inj hitems.2)

end

end FluentStf.Mpt
