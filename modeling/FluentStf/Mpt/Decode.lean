import FluentStf.Mpt.Encoding
import FluentStf.Rlp.Items

/-! Reading a node from its RLP form. A child that is referred to by its hash is read as a
digest; shorter children stand inside the form and are read with it. -/
namespace FluentStf.Mpt

open Rlp

/-- What the reader sees of an item before it reads it. -/
inductive Prototype where
  | null
  | data (size : Nat)
  | list (count : Nat)
deriving DecidableEq

def prototype (rlp : Bytes) : Except Rlp.DecodeError Prototype :=
  match rlp with
  | [] => .ok .null
  | _ => match Rlp.Header.decode rlp with
    | .error e => .error e
    | .ok (h, _) =>
        if h.list then match listItems rlp with
          | .error e => .error e
          | .ok items => .ok (.list items.length)
        else .ok (.data h.payloadLength)

inductive NodeDecodeError where
  | rlp (e : Rlp.DecodeError)
  | incorrectListLen
  | branchWithValue
  | panic
deriving DecidableEq

/-- What the decoder of nodes asks of an RLP reader. None of these operations panics. -/
structure RlpReader where
  prototype : Bytes → Except Rlp.DecodeError Prototype
  /-- An item of a list, by its position. -/
  itemAt : Bytes → Nat → Except Rlp.DecodeError Bytes
  /-- The items of a list, up to the first that cannot be read. -/
  iter : Bytes → List Bytes
  /-- An item as a byte string. -/
  asVal : Bytes → Except Rlp.DecodeError Bytes

/-- The byte string at a position of a list. -/
def RlpReader.valAt (reader : RlpReader) (rlp : Bytes) (i : Nat) :
    Except Rlp.DecodeError Bytes :=
  match reader.itemAt rlp i with
  | .error e => .error e
  | .ok item => reader.asVal item

def itemAt (rlp : Bytes) (i : Nat) : Except Rlp.DecodeError Bytes :=
  match listItems rlp with
  | .error e => .error e
  | .ok items => match items[i]? with
    | none => .error .InputTooShort
    | some item => .ok item

def itemsOf (rlp : Bytes) : List Bytes :=
  match listItems rlp with
  | .error _ => []
  | .ok items => items

def stringOf (rlp : Bytes) : Except Rlp.DecodeError Bytes :=
  match decodeBytes rlp with
  | .error e => .error e
  | .ok (bytes, _) => .ok bytes

/-- The reader that takes canonical encodings only. -/
def strictReader : RlpReader := ⟨prototype, itemAt, itemsOf, stringOf⟩

/-- Errors of the reader are passed on. -/
def fromRlp {α : Type} : Except Rlp.DecodeError α → Except NodeDecodeError α
  | .error e => .error (.rlp e)
  | .ok a => .ok a

/-- A digest of another length makes the process panic. -/
def digestOf (bytes : Bytes) : Except NodeDecodeError MptNode :=
  if h : bytes.length = 32 then .ok (.Digest ⟨bytes, h⟩) else .error .panic

/-- Another number of children makes the process panic. -/
def branchOf (children : List (Option MptNode)) : Except NodeDecodeError MptNode :=
  if h : children.length = 16 then .ok (.Branch fun i => children.get (i.cast h.symm))
  else .error .panic

section Decode

variable (reader : RlpReader) (decode : Bytes → Except NodeDecodeError MptNode)

/-- A leaf or an extension. The kind bit of the path tells which. -/
def decodePair (rlp : Bytes) : Except NodeDecodeError MptNode := do
  let path ← fromRlp (reader.valAt rlp 0)
  match path with
  | [] => .error .panic
  | first :: _ =>
      if hasLeafFlag first then do
        let value ← fromRlp (reader.valAt rlp 1)
        .ok (.Leaf path value)
      else do
        let item ← fromRlp (reader.itemAt rlp 1)
        let child ← decode item
        .ok (.Extension path child)

/-- One of the sixteen children of a branch. -/
def decodeChild (item : Bytes) : Except NodeDecodeError (Option MptNode) :=
  match reader.prototype item with
  | .error e => .error (.rlp e)
  | .ok .null => .ok none
  | .ok (.data 0) => .ok none
  | .ok _ => do
      let child ← decode item
      .ok (some child)

def decodeBranch (rlp : Bytes) : Except NodeDecodeError MptNode := do
  let children ← ((reader.iter rlp).take 16).mapM (decodeChild reader decode)
  let value ← fromRlp (reader.valAt rlp 16)
  if value = [] then branchOf children else .error .branchWithValue

/-- Read a node, with `decode` for the nodes inside it. -/
def decodeStep (rlp : Bytes) : Except NodeDecodeError MptNode :=
  match reader.prototype rlp with
  | .error e => .error (.rlp e)
  | .ok .null => .ok .Null
  | .ok (.data size) =>
      if size = 0 then .ok .Null
      else if size = 32 then do
        let bytes ← fromRlp (reader.asVal rlp)
        digestOf bytes
      else .error .incorrectListLen
  | .ok (.list count) =>
      if count = 2 then decodePair reader decode rlp
      else if count = 17 then decodeBranch reader decode rlp
      else .error .incorrectListLen

end Decode

/-- The decoder, with a bound for how deep nodes can stand inside each other. -/
def decodeNode (reader : RlpReader) : (depth : Nat) → Bytes → Except NodeDecodeError MptNode
  | 0, _ => .ok .Null
  | depth + 1, rlp => decodeStep reader (decodeNode reader depth) rlp

/-- A node inside another one is shorter, so its depth is below the number of bytes. -/
def MptNode.decodeWith (reader : RlpReader) (bytes : Bytes) : Except NodeDecodeError MptNode :=
  decodeNode reader bytes.length bytes

section Prototype

/-- The reader sees a list of these items. -/
structure RlpReader.Lists (reader : RlpReader) (rlp : Bytes) (items : List Bytes) : Prop where
  prototype : reader.prototype rlp = .ok (.list items.length)
  iter : reader.iter rlp = items
  itemAt : ∀ i item, items[i]? = some item → reader.itemAt rlp i = .ok item

/-- Canonical encodings are read as what they encode. Of other byte strings nothing is said. -/
structure RlpReader.ReadsBack (reader : RlpReader) : Prop where
  prototype : ∀ bytes : Bytes, bytes.length < 2 ^ 64 →
    reader.prototype (encodeBytes bytes) = .ok (.data bytes.length)
  asVal : ∀ {bytes : Bytes}, bytes.length < 2 ^ 64 → reader.asVal (encodeBytes bytes) = .ok bytes
  lists : ∀ {items : List Bytes}, items.flatten.length < 2 ^ 64 →
    (∀ item ∈ items, Rlp.Splits item) → reader.Lists (encodeList items) items

theorem strictReader_readsBack : strictReader.ReadsBack where
  prototype bytes h := by
    have hdecode := Rlp.Header.decode_encodeBytes h []
    rw [List.append_nil] at hdecode
    change Mpt.prototype _ = _
    unfold Mpt.prototype
    split
    · next hnil => exact absurd hnil (encodeBytes_isItem bytes h).ne_nil
    · rw [hdecode]
      rfl
  asVal h := by
    have hdecode := decodeBytes_encodeBytes h []
    rw [List.append_nil] at hdecode
    simp only [strictReader, stringOf, hdecode]
  lists {items} h hitems := by
    have hlist := listItems_encodeList h hitems
    have hdecode : Rlp.Header.decode (encodeList items) =
        .ok (⟨true, items.flatten.length⟩, items.flatten) :=
      Rlp.Header.decode_list h le_rfl
    refine ⟨?_, by simp only [strictReader, itemsOf, hlist], fun i item hi => ?_⟩
    · change Mpt.prototype _ = _
      unfold Mpt.prototype
      split
      · next hnil => exact absurd hnil (encodeList_isItem h).ne_nil
      · simp only [hdecode, hlist, if_true]
    · simp only [strictReader, Mpt.itemAt, hlist, hi]

variable {reader : RlpReader} (hreader : reader.ReadsBack)

include hreader

theorem valAt_encodeBytes {rlp : Bytes} {items : List Bytes} {i : Nat} {bytes : Bytes}
    (hlist : reader.Lists rlp items) (h : bytes.length < 2 ^ 64)
    (hi : items[i]? = some (encodeBytes bytes)) : reader.valAt rlp i = .ok bytes := by
  rw [RlpReader.valAt, hlist.itemAt i _ hi]
  exact hreader.asVal h

theorem decodeNode_digest (depth : Nat) (digest : B256) :
    decodeNode reader (depth + 1) (encodeBytes digest.bytes) = .ok (.Digest digest) := by
  have hlength : digest.bytes.length < 2 ^ 64 := by simp [digest.length_eq]
  have hprototype : reader.prototype (encodeBytes digest.bytes) = .ok (.data 32) := by
    rw [← digest.length_eq]
    exact hreader.prototype _ hlength
  simp only [decodeNode, decodeStep, hprototype, hreader.asVal hlength]
  exact dif_pos digest.length_eq

end Prototype

namespace MptNode

section RoundTrip

variable (keccak : Bytes → B256)

def payloadLength : MptNode → Nat
  | .Null => 0
  | .Branch children =>
      1 + (List.ofFn fun i => childLength ((children i).map (reference keccak))).sum
  | .Leaf path value => bytesLength path + bytesLength value
  | .Extension path child => bytesLength path + (child.reference keccak).length
  | .Digest _ => 32

def length (node : MptNode) : Nat :=
  node.payloadLength keccak + lengthOfLength (node.payloadLength keccak)

theorem encode_length (node : MptNode) : (node.encode keccak).length = node.length keccak := by
  cases node with
  | Null => rfl
  | Digest digest =>
      rw [encode, ← digest_encode, MptNodeReference.encode_length]
      rfl
  | Leaf path value =>
      simp only [encode, encodeLeaf, length, payloadLength, List.length_append,
        Rlp.Header.encode_length, encodeBytes_length]
      omega
  | Extension path child =>
      simp only [encode, encodeExtension, length, payloadLength, List.length_append,
        Rlp.Header.encode_length, encodeBytes_length, MptNodeReference.encode_length]
      omega
  | Branch children =>
      have hchildren : (List.ofFn fun i =>
            encodeChild ((children i).map (reference keccak))).flatten.length =
          (List.ofFn fun i => childLength ((children i).map (reference keccak))).sum := by
        simp only [List.length_flatten, List.map_ofFn, Function.comp_def, encodeChild_length]
      simp only [encode, encodeBranch, length, payloadLength, List.length_append,
        Rlp.Header.encode_length, hchildren, List.length_singleton]
      omega

/-- What is left of a child inside its parent. -/
def asChild (child shown : MptNode) : MptNode :=
  if 32 ≤ (child.encode keccak).length then .Digest (child.hash keccak) else shown

mutual

/-- The node that is read from the encoding of a node. -/
def decoded : MptNode → MptNode
  | .Branch children => .Branch fun i => decodedChild (children i)
  | .Extension path child => .Extension path (child.asChild keccak child.decoded)
  | other => other

/-- An empty child becomes an absent one. -/
def decodedChild : Option MptNode → Option MptNode
  | none => none
  | some child => if child.isEmpty then none else some (child.asChild keccak child.decoded)

end

mutual

/-- The paths of leaves and extensions have their kind bits, and the lengths are machine
words. -/
def PathsEncoded : MptNode → Prop
  | .Null => True
  | .Branch children => ∀ i, ChildPathsEncoded (children i)
  | .Leaf path value => (∃ nibs, path = toEncodedPath nibs true) ∧
      bytesLength path + bytesLength value < 2 ^ 64
  | .Extension path child => (∃ nibs, path = toEncodedPath nibs false) ∧
      bytesLength path + 33 < 2 ^ 64 ∧ child.PathsEncoded
  | .Digest _ => True

def ChildPathsEncoded : Option MptNode → Prop
  | none => True
  | some child => child.PathsEncoded

end

variable {keccak} {node : MptNode}

/-- How a child of 32 bytes or more is referred to. -/
theorem reference_of_long (h : 32 ≤ (node.encode keccak).length) :
    node.reference keccak = .Digest (node.hash keccak) := by
  cases hdigest : node.isDigest with
  | true =>
      cases node with
      | Digest digest => rfl
      | Null | Branch | Leaf | Extension => cases hdigest
  | false =>
      have hreference : node.reference keccak = .Digest (keccak (node.encode keccak)) := by
        rw [reference_eq keccak hdigest, referenceOf, if_neg (by omega)]
      rw [hreference]
      cases node with
      | Null => simp [encode] at h
      | Digest digest => cases hdigest
      | Branch | Leaf | Extension => simp only [hash, hreference]

theorem reference_of_short (h : (node.encode keccak).length < 32) :
    node.reference keccak = .Bytes (node.encode keccak) := by
  have hdigest : node.isDigest = false := by
    cases node with
    | Digest digest =>
        rw [encode_length] at h
        simp [length, payloadLength, lengthOfLength] at h
    | Null | Branch | Leaf | Extension => rfl
  rw [reference_eq keccak hdigest, referenceOf, if_pos h]

theorem reference_asChild {child shown : MptNode}
    (h : shown.reference keccak = child.reference keccak) :
    (child.asChild keccak shown).reference keccak = child.reference keccak := by
  rw [asChild]
  split
  · next hlong => exact (reference_of_long hlong).symm
  · exact h

theorem reference_decodedChild {child : Option MptNode} (ih : ∀ node, child = some node →
      (node.decoded keccak).reference keccak = node.reference keccak) :
    (orNull (decodedChild keccak child)).reference keccak = (orNull child).reference keccak := by
  cases child with
  | none => rfl
  | some node =>
      rw [decodedChild]
      split
      · next hempty =>
          cases node with
          | Null => rfl
          | Branch | Leaf | Extension | Digest => cases hempty
      · exact reference_asChild (ih node rfl)

/-- Reading does not change references. -/
theorem reference_decoded (node : MptNode) :
    (node.decoded keccak).reference keccak = node.reference keccak := by
  induction node with
  | Null => rfl
  | Leaf path value => rfl
  | Digest digest => rfl
  | Extension path child ih =>
      rw [decoded, reference_extension, reference_extension, encode, encode, reference_asChild ih]
  | Branch children ih =>
      have hchildren : ∀ i, (orNull (decodedChild keccak (children i))).reference keccak =
          (orNull (children i)).reference keccak :=
        fun i => reference_decodedChild (ih i)
      rw [decoded, reference_branch, reference_branch, encode_branch, encode_branch]
      simp only [items, hchildren]

theorem hash_decoded (node : MptNode) :
    (node.decoded keccak).hash keccak = node.hash keccak := by
  have hreference := @reference_decoded keccak node
  cases node with
  | Null => rfl
  | Leaf path value => rfl
  | Digest digest => rfl
  | Extension path child =>
      rw [decoded] at hreference ⊢
      simp only [hash, hreference]
  | Branch children =>
      rw [decoded] at hreference ⊢
      simp only [hash, hreference]

theorem splits_reference (node : MptNode) : Rlp.Splits (node.reference keccak).encode := by
  rcases reference_cases keccak node with ⟨digest, h⟩ | ⟨_, h⟩ | ⟨items, h, hshort⟩
  · rw [h, digest_encode]
    exact splits_encodeBytes (by simp [digest.length_eq])
  · rw [h]
    exact @splits_encodeBytes [] (by simp)
  · rw [h]
    have hflatten := flatten_length_le_encodeList items
    exact splits_encodeList (by omega)

/-- The length of the payload is a machine word. -/
theorem PathsEncoded.items_length (h : node.PathsEncoded) :
    (node.items keccak).flatten.length < 2 ^ 64 := by
  cases node with
  | Null => simp [items]
  | Digest digest => simp [items]
  | Leaf path value => simpa [items, encodeBytes_length] using h.2
  | Extension path child =>
      have hchild := reference_length_le keccak child
      have hlength := h.2.1
      simp only [items, List.flatten_cons, List.flatten_nil, List.append_nil, List.length_append,
        encodeBytes_length]
      omega
  | Branch children =>
      have hchildren : ((List.ofFn fun i =>
          ((orNull (children i)).reference keccak).encode).map List.length).sum ≤ 16 * 33 := by
        refine (List.sum_le_card_nsmul _ 33 ?_).trans (by simp)
        intro n hn
        simp only [List.map_ofFn, List.mem_ofFn] at hn
        obtain ⟨i, rfl⟩ := hn
        exact reference_length_le keccak _
      simp only [items, List.flatten_append, List.length_append, List.length_flatten,
        List.map_cons, List.map_nil, List.sum_cons, List.sum_nil, List.length_singleton]
      omega

theorem splits_items (h : node.PathsEncoded) :
    ∀ item ∈ node.items keccak, Rlp.Splits item := by
  have hlength : (node.items keccak).flatten.length < 2 ^ 64 := h.items_length
  intro item hitem
  cases node with
  | Null => cases hitem
  | Digest digest => cases hitem
  | Branch children =>
      simp only [items, List.mem_append, List.mem_ofFn, List.mem_singleton] at hitem
      rcases hitem with ⟨i, rfl⟩ | rfl
      · exact splits_reference _
      · exact @splits_encodeBytes [] (by simp)
  | Leaf path value =>
      simp only [items, List.flatten_cons, List.flatten_nil, List.length_append] at hlength
      have hp := length_le_encodeBytes path
      have hv := length_le_encodeBytes value
      simp only [items, List.mem_cons, List.not_mem_nil, or_false] at hitem
      rcases hitem with rfl | rfl
      · exact splits_encodeBytes (by omega)
      · exact splits_encodeBytes (by omega)
  | Extension path child =>
      simp only [items, List.flatten_cons, List.flatten_nil, List.length_append] at hlength
      have hp := length_le_encodeBytes path
      simp only [items, List.mem_cons, List.not_mem_nil, or_false] at hitem
      rcases hitem with rfl | rfl
      · exact splits_encodeBytes (by omega)
      · exact splits_reference child

theorem mapM_ofFn {α β ε : Type} {f : α → Except ε β} {n : Nat} {as : Fin n → α} {bs : Fin n → β}
    (h : ∀ i, f (as i) = .ok (bs i)) : (List.ofFn as).mapM f = .ok (List.ofFn bs) := by
  induction n with
  | zero => rfl
  | succ n ih =>
      rw [List.ofFn_succ, List.ofFn_succ, List.mapM_cons, h, ih fun i => h i.succ]
      rfl

theorem length_le_bytesLength (bytes : Bytes) : bytes.length ≤ bytesLength bytes :=
  encodeBytes_length bytes ▸ length_le_encodeBytes bytes

theorem branchOf_ofFn (children : Nibble → Option MptNode) :
    branchOf (List.ofFn children) = .ok (.Branch children) := by
  rw [branchOf, dif_pos (List.length_ofFn)]
  refine congrArg _ (congrArg _ (funext fun i => ?_))
  rw [List.get_ofFn]
  rfl

variable {depth : Nat} {reader : RlpReader}

/-- A list is read item by item. The items are shorter than the list. -/
theorem decodeNode_list {items : List Bytes} (hlist : reader.Lists (encodeList items) items)
    (hdepth : (encodeList items).length ≤ depth) :
    ∃ below, (∀ item ∈ items, item.length ≤ below) ∧
      decodeNode reader depth (encodeList items) =
        if items.length = 2 then
          decodePair reader (decodeNode reader below) (encodeList items)
        else if items.length = 17 then
          decodeBranch reader (decodeNode reader below) (encodeList items)
        else .error .incorrectListLen := by
  have hheader : 0 < lengthOfLength items.flatten.length := by
    rw [lengthOfLength]
    split <;> omega
  rw [encodeList_length] at hdepth
  obtain ⟨below, rfl⟩ : ∃ below, depth = below + 1 := ⟨depth - 1, by omega⟩
  refine ⟨below, fun item hitem => ?_, by simp only [decodeNode, decodeStep, hlist.prototype]⟩
  have hle := (List.sublist_flatten_of_mem hitem).length_le
  omega

variable (hreader : reader.ReadsBack)

include hreader

theorem lists_items (h : node.PathsEncoded) (keccak : Bytes → B256) :
    reader.Lists (encodeList (node.items keccak)) (node.items keccak) :=
  hreader.lists h.items_length (splits_items h)

/-- A child is read from its reference, if it can be read where it stands in full. -/
theorem decodeNode_reference {child : MptNode} (hdepth : 0 < depth)
    (ih : (child.encode keccak).length < 32 →
      decodeNode reader depth (child.encode keccak) = .ok (child.decoded keccak)) :
    decodeNode reader depth (child.reference keccak).encode =
      .ok (child.asChild keccak (child.decoded keccak)) := by
  obtain ⟨depth, rfl⟩ := Nat.exists_eq_succ_of_ne_zero hdepth.ne'
  rw [asChild]
  split
  · next hlong =>
      rw [reference_of_long hlong, digest_encode]
      exact decodeNode_digest hreader depth _
  · next hshort =>
      rw [reference_of_short (Nat.lt_of_not_le hshort)]
      exact ih (Nat.lt_of_not_le hshort)

theorem prototype_empty : reader.prototype [EMPTY_STRING_CODE] = .ok (.data 0) :=
  hreader.prototype [] (by simp)

/-- Only an empty child is shown as the empty string. -/
theorem prototype_reference (hempty : node.isEmpty = false) (hpaths : node.PathsEncoded) :
    reader.prototype (node.reference keccak).encode = .ok (.data 32) ∨
      ∃ count, reader.prototype (node.reference keccak).encode = .ok (.list count) := by
  by_cases hlong : 32 ≤ (node.encode keccak).length
  · rw [reference_of_long hlong, digest_encode, hreader.prototype _ (by simp [B256.length_eq])]
    exact .inl (congrArg (Except.ok ∘ Prototype.data) (node.hash keccak).length_eq)
  · have hshort := Nat.lt_of_not_le hlong
    have hnull : node ≠ .Null := by
      rintro rfl
      cases hempty
    have hdigest : node.isDigest = false := by
      cases node with
      | Digest digest => simp [encode_length, length, payloadLength, lengthOfLength] at hshort
      | Null | Branch | Leaf | Extension => rfl
    rw [reference_of_short hshort, MptNodeReference.encode, encode_eq_items keccak hnull hdigest]
    exact .inr ⟨_, (lists_items hreader hpaths keccak).prototype⟩

theorem decodeChild_reference {child : Option MptNode} (hdepth : 0 < depth)
    (hpaths : ChildPathsEncoded child)
    (ih : ∀ node, child = some node → (node.encode keccak).length < 32 →
      decodeNode reader depth (node.encode keccak) = .ok (node.decoded keccak)) :
    decodeChild reader (decodeNode reader depth)
        ((orNull child).reference keccak).encode = .ok (decodedChild keccak child) := by
  have habsent : decodeChild reader (decodeNode reader depth) [EMPTY_STRING_CODE] =
      .ok none := by
    simp only [decodeChild, prototype_empty hreader]
  cases child with
  | none => exact habsent
  | some node =>
      have hdecode := decodeNode_reference hreader hdepth (ih node rfl)
      cases hempty : node.isEmpty with
      | true =>
          cases node with
          | Null => exact habsent
          | Branch | Leaf | Extension | Digest => cases hempty
      | false =>
          simp only [orNull, Option.getD_some, decodedChild, hempty, decodeChild]
          obtain hprototype | ⟨count, hprototype⟩ :=
            @prototype_reference keccak node _ hreader hempty hpaths
          · rw [hprototype]
            simp only [hdecode]
            rfl
          · rw [hprototype]
            simp only [hdecode]
            rfl

theorem decodePair_leaf (decode : Bytes → Except NodeDecodeError MptNode) {rlp : Bytes}
    {nibs : List Nibble} {path value : Bytes}
    (hlist : reader.Lists rlp [encodeBytes path, encodeBytes value])
    (hpath : path = toEncodedPath nibs true)
    (hlength : bytesLength path + bytesLength value < 2 ^ 64) :
    decodePair reader decode rlp = .ok (.Leaf path value) := by
  have hpathLe := length_le_bytesLength path
  have hvalueLe := length_le_bytesLength value
  obtain ⟨first, tail, hfirst, hflag⟩ := toEncodedPath_flag nibs true
  rw [← hpath] at hfirst
  rw [decodePair, @valAt_encodeBytes _ hreader _ _ 0 path hlist (by omega) rfl,
    @valAt_encodeBytes _ hreader _ _ 1 value hlist (by omega) rfl, hfirst]
  simp only [bind, Except.bind, fromRlp, hflag, if_true]

theorem decodePair_extension {decode : Bytes → Except NodeDecodeError MptNode} {rlp : Bytes}
    {nibs : List Nibble} {path item : Bytes} {child : MptNode}
    (hlist : reader.Lists rlp [encodeBytes path, item])
    (hpath : path = toEncodedPath nibs false) (hlength : bytesLength path < 2 ^ 64)
    (hchild : decode item = .ok child) :
    decodePair reader decode rlp = .ok (.Extension path child) := by
  have hpathLe := length_le_bytesLength path
  obtain ⟨first, tail, hfirst, hflag⟩ := toEncodedPath_flag nibs false
  rw [← hpath] at hfirst
  rw [decodePair, @valAt_encodeBytes _ hreader _ _ 0 path hlist (by omega) rfl,
    hlist.itemAt 1 item rfl, hfirst]
  simp [bind, Except.bind, fromRlp, hflag, hchild]

theorem decodeBranch_items {decode : Bytes → Except NodeDecodeError MptNode} {rlp : Bytes}
    {items : Nibble → Bytes} {children : Nibble → Option MptNode}
    (hlist : reader.Lists rlp (List.ofFn items ++ [[EMPTY_STRING_CODE]]))
    (hchildren : ∀ i, decodeChild reader decode (items i) = .ok (children i)) :
    decodeBranch reader decode rlp = .ok (.Branch children) := by
  have htake : (reader.iter rlp).take 16 = List.ofFn items := by
    rw [hlist.iter]
    exact List.take_left' (by simp)
  have hvalue : reader.valAt rlp 16 = .ok [] := by
    refine @valAt_encodeBytes _ hreader _ _ 16 [] hlist (by simp) ?_
    rw [List.getElem?_append_right (by simp)]
    simp
    rfl
  rw [decodeBranch, htake, mapM_ofFn hchildren, hvalue]
  simp only [bind, Except.bind, fromRlp, if_true, branchOf_ofFn]

/-- A node is read back from its encoding, with its long children as digests. -/
theorem decodeNode_encode (hpaths : node.PathsEncoded)
    (hdepth : (node.encode keccak).length ≤ depth) :
    decodeNode reader depth (node.encode keccak) = .ok (node.decoded keccak) := by
  induction node generalizing depth with
  | Null =>
      cases depth with
      | zero => rfl
      | succ depth =>
          simp only [encode, decodeNode, decodeStep, prototype_empty hreader, if_true, decoded]
  | Digest digest =>
      cases depth with
      | zero =>
          rw [encode_length] at hdepth
          simp [length, payloadLength] at hdepth
      | succ depth => exact decodeNode_digest hreader depth digest
  | Leaf path value =>
      rw [encode_leaf] at hdepth ⊢
      have hlist := lists_items hreader hpaths keccak
      obtain ⟨below, -, hdecode⟩ := decodeNode_list hlist hdepth
      obtain ⟨⟨nibs, hnibs⟩, hlength⟩ := hpaths
      exact hdecode.trans (decodePair_leaf hreader _ hlist hnibs hlength)
  | Extension path child ih =>
      rw [encode_extension] at hdepth ⊢
      have hlist := lists_items hreader hpaths keccak
      obtain ⟨below, hbelow, hdecode⟩ := decodeNode_list hlist hdepth
      obtain ⟨⟨nibs, hnibs⟩, hlength, hchild⟩ := hpaths
      have hitem := hbelow (child.reference keccak).encode (by simp [items])
      have hpos : 0 < below :=
        (List.length_pos_iff.mpr (splits_reference child).1).trans_le hitem
      refine hdecode.trans (decodePair_extension hreader hlist hnibs (by omega) ?_)
      refine decodeNode_reference hreader hpos fun hshort => ih hchild ?_
      rwa [reference_of_short hshort] at hitem
  | Branch children ih =>
      rw [encode_branch] at hdepth ⊢
      have hlist := lists_items hreader hpaths keccak
      obtain ⟨below, hbelow, hdecode⟩ := decodeNode_list hlist hdepth
      have hitem : ∀ i, ((orNull (children i)).reference keccak).encode.length ≤ below :=
        fun i => hbelow _ (List.mem_append_left _ (List.mem_ofFn.mpr ⟨i, rfl⟩))
      have hpos : 0 < below :=
        (List.length_pos_iff.mpr (splits_reference (orNull (children 0))).1).trans_le (hitem 0)
      have hcount : ((Branch children).items keccak).length = 17 := by simp [items]
      rw [hdecode, hcount, if_neg (by decide), if_pos rfl, decoded]
      refine decodeBranch_items hreader hlist fun i => ?_
      refine decodeChild_reference hreader hpos (hpaths i) fun node hnode hshort => ?_
      have hpathsChild := hpaths i
      have hitemChild := hitem i
      rw [hnode] at hpathsChild hitemChild
      refine ih i node hnode hpathsChild ?_
      rwa [orNull, Option.getD_some, reference_of_short hshort] at hitemChild

end RoundTrip

end MptNode

/-- The RLP form of a node has the predicted length and is read back as the node with its long
children as digests, which has the same reference and the same hash. Of the RLP library it is
assumed that it reads back what was encoded, and nothing about other bytes. -/
theorem node_rlp_round_trip (keccak : Bytes → B256) {reader : RlpReader}
    (hreader : reader.ReadsBack) {node : MptNode} (hpaths : node.PathsEncoded) :
    (node.encode keccak).length = node.length keccak ∧
      MptNode.decodeWith reader (node.encode keccak) = .ok (node.decoded keccak) ∧
      (node.decoded keccak).reference keccak = node.reference keccak ∧
      (node.decoded keccak).hash keccak = node.hash keccak :=
  ⟨node.encode_length keccak, MptNode.decodeNode_encode hreader hpaths le_rfl,
    node.reference_decoded, node.hash_decoded⟩

section Sample

/-- An extension to a branch with a short leaf, a long leaf and an empty child. -/
def sampleNode : MptNode :=
  .Extension (toEncodedPath [1] false) (.Branch fun i =>
    if i = 0 then some (.Leaf (toEncodedPath [2, 3] true) [7])
    else if i = 5 then some (.Leaf (toEncodedPath [4] true) (List.replicate 40 9))
    else if i = 9 then some .Null
    else none)

/-- Keccak-256 of the long leaf, the branch and the extension. -/
def sampleNodeDigests : List (Bytes × B256) :=
  let leaf := .ofNat 0x41a05901e09c5ebe031b4b5216e38194bf33ab5a8960ad5aa1f68a1f98449933
  let branch := .ofNat 0x8e7ed6809c47ed869895eb6663243b8d95469bf7c0f78c59aaea9f76cb7f08f5
  [([0xea, 0x34, 0xa8] ++ List.replicate 40 9, leaf),
    ([0xf5, 0xc4, 0x82, 0x20, 0x23, 7, 0x80, 0x80, 0x80, 0x80, 0xa0] ++ leaf.bytes ++
      List.replicate 11 0x80, branch),
    ([0xe2, 0x11, 0xa0] ++ branch.bytes,
      .ofNat 0xa6d1f6768daa51499b48e992c65f23631664b36240ffe9523e321cffa02fd62c)]

theorem node_rlp_round_trip_sample :
    MptNode.decodeWith strictReader (sampleNode.encode (tableHash sampleNodeDigests)) =
        .ok (sampleNode.decoded (tableHash sampleNodeDigests)) ∧
      (sampleNode.decoded (tableHash sampleNodeDigests)).hash (tableHash sampleNodeDigests) =
        .ofNat 0xa6d1f6768daa51499b48e992c65f23631664b36240ffe9523e321cffa02fd62c := by
  have hpaths : sampleNode.PathsEncoded := by
    refine ⟨⟨[1], rfl⟩, by decide, fun i => ?_⟩
    simp only
    split
    · exact ⟨⟨[2, 3], rfl⟩, by decide⟩
    · split
      · exact ⟨⟨[4], rfl⟩, by decide⟩
      · split <;> trivial
  have hround := node_rlp_round_trip (tableHash sampleNodeDigests) strictReader_readsBack hpaths
  exact ⟨hround.2.1, hround.2.2.2.trans (by decide +kernel)⟩

end Sample

end FluentStf.Mpt
