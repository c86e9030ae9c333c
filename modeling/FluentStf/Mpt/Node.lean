import FluentStf.Mpt.Path
import FluentStf.Rlp.Encoding

/-! The nodes of the sparse trie, their RLP form, the references of nodes inside
other nodes, and the root hash. The hash function is a parameter. Caches of
references are not part of a node here. -/
namespace FluentStf.Mpt

/-- The data of a node. A subtrie can be represented by its digest alone. -/
inductive MptNode where
  | Null
  | Branch (children : Nibble → Option MptNode)
  | Leaf (path value : Bytes)
  | Extension (path : Bytes) (child : MptNode)
  | Digest (digest : B256)

instance : Inhabited MptNode := ⟨.Null⟩

/-- How a node refers to another one: by its encoding when that is shorter than
32 bytes, otherwise by its hash. -/
inductive MptNodeReference where
  | Bytes (bytes : Bytes)
  | Digest (digest : B256)
deriving DecidableEq

/-- Induction over nodes, with the present children of a branch. -/
@[elab_as_elim, induction_eliminator]
theorem MptNode.induction {motive : MptNode → Prop} (Null : motive .Null)
    (Branch : ∀ children, (∀ i child, children i = some child → motive child) →
      motive (.Branch children))
    (Leaf : ∀ path value, motive (.Leaf path value))
    (Extension : ∀ path child, motive child → motive (.Extension path child))
    (Digest : ∀ digest, motive (.Digest digest)) (node : MptNode) : motive node :=
  @MptNode.rec motive (fun o => ∀ child, o = some child → motive child)
    Null Branch Leaf Extension Digest
    (fun _ h => nomatch h) (fun _ h _ he => Option.some.inj he ▸ h) node

/-- Root hash of an empty trie. -/
def EMPTY_ROOT : B256 :=
  ⟨[0x56, 0xe8, 0x1f, 0x17, 0x1b, 0xcc, 0x55, 0xa6, 0xff, 0x83, 0x45, 0xe6, 0x92, 0xc0, 0xf8, 0x6e,
    0x5b, 0x48, 0xe0, 0x1b, 0x99, 0x6c, 0xad, 0xc0, 0x01, 0x62, 0x2f, 0xb5, 0xe3, 0x63, 0xb4, 0x21],
    rfl⟩

/-- The RLP code of the empty string. -/
def EMPTY_STRING_CODE : UInt8 := 0x80

namespace MptNodeReference

def encode : MptNodeReference → FluentStf.Bytes
  | Bytes bytes => bytes
  | Digest digest => (EMPTY_STRING_CODE + 32) :: digest.bytes

def length : MptNodeReference → Nat
  | Bytes bytes => bytes.length
  | Digest _ => 1 + 32

theorem encode_length (r : MptNodeReference) : r.encode.length = r.length := by
  cases r with
  | Bytes bytes => rfl
  | Digest digest =>
      simp only [encode, length, List.length_cons, digest.length_eq]

end MptNodeReference

/-- The bytes written for one of the sixteen children. -/
def encodeChild (reference : Option MptNodeReference) : Bytes :=
  match reference with
  | some r => r.encode
  | none => [EMPTY_STRING_CODE]

def childLength (reference : Option MptNodeReference) : Nat :=
  match reference with
  | some r => r.length
  | none => 1

/-- Branches carry an empty value after their children. -/
def encodeBranch (references : Nibble → Option MptNodeReference) : Bytes :=
  Rlp.Header.encode ⟨true, 1 + (List.ofFn fun i => childLength (references i)).sum⟩ ++
    (List.ofFn fun i => encodeChild (references i)).flatten ++ [EMPTY_STRING_CODE]

def encodeLeaf (path value : Bytes) : Bytes :=
  Rlp.Header.encode ⟨true, (Rlp.encodeBytes path).length + (Rlp.encodeBytes value).length⟩ ++
    Rlp.encodeBytes path ++ Rlp.encodeBytes value

def encodeExtension (path : Bytes) (reference : MptNodeReference) : Bytes :=
  Rlp.Header.encode ⟨true, (Rlp.encodeBytes path).length + reference.length⟩ ++
    Rlp.encodeBytes path ++ reference.encode

section Hash

variable (keccak : Bytes → B256)

/-- Encodings below 32 bytes stand for themselves. -/
def referenceOf (encoded : Bytes) : MptNodeReference :=
  if encoded.length < 32 then .Bytes encoded else .Digest (keccak encoded)

namespace MptNode

mutual

def reference : MptNode → MptNodeReference
  | .Null => .Bytes [EMPTY_STRING_CODE]
  | .Branch children => referenceOf keccak (encodeBranch fun i => childReference (children i))
  | .Leaf path value => referenceOf keccak (encodeLeaf path value)
  | .Extension path child => referenceOf keccak (encodeExtension path child.reference)
  | .Digest digest => .Digest digest

def childReference : Option MptNode → Option MptNodeReference
  | none => none
  | some child => some child.reference

end

theorem childReference_eq (child : Option MptNode) :
    childReference keccak child = child.map (reference keccak) := by
  cases child <;> rfl

/-- The RLP form of a node. -/
def encode : MptNode → Bytes
  | .Null => [EMPTY_STRING_CODE]
  | .Branch children => encodeBranch fun i => (children i).map (reference keccak)
  | .Leaf path value => encodeLeaf path value
  | .Extension path child => encodeExtension path (child.reference keccak)
  | .Digest digest => Rlp.encodeBytes digest.bytes

/-- The reference of a node that has contents is that of its encoding. -/
theorem reference_branch (children : Nibble → Option MptNode) :
    (Branch children).reference keccak = referenceOf keccak ((Branch children).encode keccak) := by
  simp only [reference, encode, childReference_eq]

theorem reference_extension (path : Bytes) (child : MptNode) :
    (Extension path child).reference keccak =
      referenceOf keccak ((Extension path child).encode keccak) := rfl

def hash (node : MptNode) : B256 :=
  match node with
  | .Null => EMPTY_ROOT
  | _ => match node.reference keccak with
    | .Digest digest => digest
    | .Bytes bytes => keccak bytes

def isEmpty : MptNode → Bool
  | .Null => true
  | _ => false

end MptNode

end Hash

end FluentStf.Mpt
