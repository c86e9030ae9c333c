import FluentStf.Mpt.Operations

/-! Nodes with the cache that each of them has for its reference. A cache is filled when the
reference is asked for and emptied when the node is changed. Children that move to another
place keep their caches. -/
namespace FluentStf.Mpt

abbrev CachedReference := Option MptNodeReference

/-- A node with its cache. -/
inductive CachedNode where
  | Null (cache : CachedReference)
  | Branch (cache : CachedReference) (children : Nibble → Option CachedNode)
  | Leaf (cache : CachedReference) (path value : Bytes)
  | Extension (cache : CachedReference) (path : Bytes) (child : CachedNode)
  | Digest (cache : CachedReference) (digest : B256)

/-- Induction over nodes, with the present children of a branch. -/
@[elab_as_elim, induction_eliminator]
theorem CachedNode.induction {motive : CachedNode → Prop} (Null : ∀ cache, motive (.Null cache))
    (Branch : ∀ cache children, (∀ i child, children i = some child → motive child) →
      motive (.Branch cache children))
    (Leaf : ∀ cache path value, motive (.Leaf cache path value))
    (Extension : ∀ cache path child, motive child → motive (.Extension cache path child))
    (Digest : ∀ cache digest, motive (.Digest cache digest)) (node : CachedNode) : motive node :=
  @CachedNode.rec motive (fun o => ∀ child, o = some child → motive child)
    Null Branch Leaf Extension Digest
    (fun _ h => nomatch h) (fun _ h _ he => Option.some.inj he ▸ h) node

namespace CachedNode

mutual

/-- The node without its caches. -/
def erase : CachedNode → MptNode
  | .Null _ => .Null
  | .Branch _ children => .Branch fun i => eraseChild (children i)
  | .Leaf _ path value => .Leaf path value
  | .Extension _ path child => .Extension path child.erase
  | .Digest _ digest => .Digest digest

def eraseChild : Option CachedNode → Option MptNode
  | none => none
  | some child => some child.erase

end

/-- The node itself is empty. -/
def isEmpty : CachedNode → Bool
  | .Null _ => true
  | _ => false

/-- The children array with the two nodes of a split, all others absent. -/
def splitChildren (i : Nibble) (old : CachedNode) (j : Nibble) (new : CachedNode) :
    Nibble → Option CachedNode :=
  Function.update (Function.update (fun _ => none) i (some old)) j (some new)

def splitNode (selfNibs : List Nibble) (commonLen : Nat) (branch : CachedNode) : CachedNode :=
  if commonLen > 0 then .Extension none (toEncodedPath (selfNibs.take commonLen) false) branch
  else branch

/-- The rest of a split extension. Its child keeps its cache when it moves under the new
branch. -/
def shortenExtension (selfNibs : List Nibble) (splitPoint : Nat) (child : CachedNode) :
    CachedNode :=
  if splitPoint < selfNibs.length then
    .Extension none (toEncodedPath (selfNibs.drop splitPoint) false) child
  else child

/-- A node is replaced by a branch with the rest of the node and a new leaf, where the paths
of both differ. -/
def split (node : CachedNode) (selfNibs : List Nibble) (commonLen : Nat) (old : CachedNode)
    (keyNibs : List Nibble) (value : Bytes) : Except Fault Bool × CachedNode :=
  match selfNibs[commonLen]?, keyNibs[commonLen]? with
  | some i, some j =>
      let new := .Leaf none (toEncodedPath (keyNibs.drop (commonLen + 1)) true) value
      (.ok true, splitNode selfNibs commonLen (.Branch none (splitChildren i old j new)))
  | _, _ => (.error .panic, node)

/-- The node after an operation on a child. The cache is emptied if the child changed. -/
def afterChild (cache : CachedReference) (result : Except Fault Bool)
    (node : CachedReference → CachedNode) : Except Fault Bool × CachedNode :=
  match result with
  | .ok true => (.ok true, node none)
  | other => (other, node cache)

mutual

/-- As without caches. Nodes above a change lose their cache. -/
def insertInternal : CachedNode → List Nibble → Bytes → Except Fault Bool × CachedNode
  | .Null _, keyNibs, value => (.ok true, .Leaf none (toEncodedPath keyNibs true) value)
  | .Branch cache children, keyNibs, value => match keyNibs with
    | i :: tail =>
        let (result, child) := insertChild (children i) tail value
        afterChild cache result fun cache => .Branch cache (Function.update children i child)
    | [] => (.error (.error .ValueInBranch), .Branch cache children)
  | .Leaf cache path oldValue, keyNibs, value => match prefixNibs path with
    | .error e => (.error e, .Leaf cache path oldValue)
    | .ok selfNibs =>
        let commonLen := lcp selfNibs keyNibs
        if commonLen = selfNibs.length ∧ commonLen = keyNibs.length then
          if oldValue = value then (.ok false, .Leaf cache path oldValue)
          else (.ok true, .Leaf none path value)
        else if commonLen = selfNibs.length ∨ commonLen = keyNibs.length then
          (.error (.error .ValueInBranch), .Leaf cache path oldValue)
        else split (.Leaf cache path oldValue) selfNibs commonLen
          (.Leaf none (toEncodedPath (selfNibs.drop (commonLen + 1)) true) oldValue) keyNibs value
  | .Extension cache path existingChild, keyNibs, value => match prefixNibs path with
    | .error e => (.error e, .Extension cache path existingChild)
    | .ok selfNibs =>
        let commonLen := lcp selfNibs keyNibs
        if commonLen = selfNibs.length then
          let (result, child) := existingChild.insertInternal (keyNibs.drop commonLen) value
          afterChild cache result fun cache => .Extension cache path child
        else if commonLen = keyNibs.length then
          (.error (.error .ValueInBranch), .Extension cache path existingChild)
        else split (.Extension cache path existingChild) selfNibs commonLen
          (shortenExtension selfNibs (commonLen + 1) existingChild) keyNibs value
  | .Digest cache digest, _, _ =>
      (.error (.error (.NodeNotResolved digest)), .Digest cache digest)

def insertChild :
    Option CachedNode → List Nibble → Bytes → Except Fault Bool × Option CachedNode
  | some node, tail, value =>
      let (result, child) := node.insertInternal tail value
      (result, some child)
  | none, tail, value => (.ok true, some (.Leaf none (toEncodedPath tail true) value))

end

/-- An empty value makes the process panic. -/
def insert (node : CachedNode) (key value : Bytes) : Except Fault Bool × CachedNode :=
  if value = [] then (.error .panic, node) else node.insertInternal (toNibs key) value

def remaining (children : Nibble → Option CachedNode) : List (Nibble × CachedNode) :=
  (List.finRange 16).filterMap fun i => (children i).map (i, ·)

/-- What a branch becomes once a child was changed by a deletion. The last child keeps its
cache if it becomes the child of an extension, and so does its own child. -/
def collapse (children : Nibble → Option CachedNode) : Except Fault Bool × CachedNode :=
  match remaining children with
  | [] => (.error .panic, .Branch none children)
  | [(index, orphan)] => match orphan with
    | .Leaf _ path orphanValue => match prefixNibs path with
      | .error e => (.error e, .Branch none children)
      | .ok nibs => (.ok true, .Leaf none (toEncodedPath (index :: nibs) true) orphanValue)
    | .Extension _ path orphanChild => match prefixNibs path with
      | .error e => (.error e, .Branch none children)
      | .ok nibs => (.ok true, .Extension none (toEncodedPath (index :: nibs) false) orphanChild)
    | .Branch cache grandchildren =>
        (.ok true, .Extension none (toEncodedPath [index] false) (.Branch cache grandchildren))
    | .Digest cache digest =>
        (.ok true, .Extension none (toEncodedPath [index] false) (.Digest cache digest))
    | .Null _ => (.error .panic, .Branch none children)
  | _ => (.ok true, .Branch none children)

/-- What an extension becomes once its child was changed by a deletion. -/
def mergeExtension (path : Bytes) (selfNibs : List Nibble) (child : CachedNode) :
    Except Fault Bool × CachedNode :=
  match child with
  | .Null _ => (.ok true, .Null none)
  | .Leaf _ childPath value => match prefixNibs childPath with
    | .error e => (.error e, .Extension none path child)
    | .ok nibs => (.ok true, .Leaf none (toEncodedPath (selfNibs ++ nibs) true) value)
  | .Extension _ childPath node => match prefixNibs childPath with
    | .error e => (.error e, .Extension none path child)
    | .ok nibs => (.ok true, .Extension none (toEncodedPath (selfNibs ++ nibs) false) node)
  | .Branch _ _ => (.ok true, .Extension none path child)
  | .Digest _ _ => (.ok true, .Extension none path child)

mutual

def deleteInternal : CachedNode → List Nibble → Except Fault Bool × CachedNode
  | .Null cache, _ => (.ok false, .Null cache)
  | .Branch cache children, keyNibs => match keyNibs with
    | i :: tail =>
        let (result, child) := deleteChild (children i) tail
        match result with
        | .ok true => collapse (Function.update children i child)
        | other => (other, .Branch cache (Function.update children i child))
    | [] => (.error (.error .ValueInBranch), .Branch cache children)
  | .Leaf cache path value, keyNibs => match prefixNibs path with
    | .error e => (.error e, .Leaf cache path value)
    | .ok selfNibs =>
        if selfNibs ≠ keyNibs then (.ok false, .Leaf cache path value) else (.ok true, .Null none)
  | .Extension cache path child, keyNibs => match prefixNibs path with
    | .error e => (.error e, .Extension cache path child)
    | .ok selfNibs => match keyNibs.dropPrefix? selfNibs with
      | some tail =>
          let (result, child) := child.deleteInternal tail
          match result with
          | .ok true => mergeExtension path selfNibs child
          | other => (other, .Extension cache path child)
      | none => (.ok false, .Extension cache path child)
  | .Digest cache digest, _ => (.error (.error (.NodeNotResolved digest)), .Digest cache digest)

/-- A child emptied by the deletion is removed from the array. -/
def deleteChild : Option CachedNode → List Nibble → Except Fault Bool × Option CachedNode
  | some node, tail =>
      let (result, child) := node.deleteInternal tail
      match result with
      | .ok true => (.ok true, if child.isEmpty then none else some child)
      | other => (other, some child)
  | none, _ => (.ok false, none)

end

def delete (node : CachedNode) (key : Bytes) : Except Fault Bool × CachedNode :=
  node.deleteInternal (toNibs key)

def clear (_ : CachedNode) : CachedNode := .Null none

mutual

/-- A copy has the caches of its original. -/
def clone : CachedNode → CachedNode
  | .Null cache => .Null cache
  | .Branch cache children => .Branch cache fun i => cloneChild (children i)
  | .Leaf cache path value => .Leaf cache path value
  | .Extension cache path child => .Extension cache path child.clone
  | .Digest cache digest => .Digest cache digest

def cloneChild : Option CachedNode → Option CachedNode
  | none => none
  | some child => some child.clone

end

section Reference

variable (keccak : Bytes → B256)

mutual

/-- The reference of a node and the node with the caches that are filled on the way: its own
and, if it has contents, those of its children. A full cache is returned as it is. -/
def reference : CachedNode → MptNodeReference × CachedNode
  | .Null cache =>
      let r := cache.getD (.Bytes [EMPTY_STRING_CODE])
      (r, .Null (some r))
  | .Digest cache digest =>
      let r := cache.getD (.Digest digest)
      (r, .Digest (some r) digest)
  | .Leaf cache path value =>
      let r := cache.getD (referenceOf keccak (encodeLeaf path value))
      (r, .Leaf (some r) path value)
  | .Extension cache path child => match cache with
    | some r => (r, .Extension (some r) path child)
    | none =>
        let (childReference, child) := child.reference
        let r := referenceOf keccak (encodeExtension path childReference)
        (r, .Extension (some r) path child)
  | .Branch cache children => match cache with
    | some r => (r, .Branch (some r) children)
    | none =>
        let r := referenceOf keccak (encodeBranch fun i => (referenceChild (children i)).1)
        (r, .Branch (some r) fun i => (referenceChild (children i)).2)

def referenceChild : Option CachedNode → Option MptNodeReference × Option CachedNode
  | none => (none, none)
  | some child => (some child.reference.1, some child.reference.2)

end

/-- The hash of a node. The empty node does not look at its cache. -/
def hash (node : CachedNode) : B256 × CachedNode :=
  match node with
  | .Null cache => (EMPTY_ROOT, .Null cache)
  | _ => match node.reference keccak with
    | (.Digest digest, node) => (digest, node)
    | (.Bytes bytes, node) => (keccak bytes, node)

mutual

/-- A call on a node inside the tree. The position has a nibble for each step down; an
extension has one child only. -/
def modifyAt (f : CachedNode → CachedNode) : CachedNode → List Nibble → CachedNode
  | .Branch cache children, position => match position with
    | i :: rest =>
        .Branch cache (Function.update children i (modifyChildAt f (children i) rest))
    | [] => f (.Branch cache children)
  | .Extension cache path child, position => match position with
    | _ :: rest => .Extension cache path (child.modifyAt f rest)
    | [] => f (.Extension cache path child)
  | other, position => match position with
    | _ :: _ => other
    | [] => f other

def modifyChildAt (f : CachedNode → CachedNode) :
    Option CachedNode → List Nibble → Option CachedNode
  | none, _ => none
  | some child, rest => some (child.modifyAt f rest)

end

end Reference

end CachedNode

/-- The calls that can be made on a node. References and hashes can be asked of the nodes
inside the tree as well. -/
inductive NodeCall where
  | insert (key value : Bytes)
  | delete (key : Bytes)
  | clear
  | clone
  | hash (position : List Nibble)
  | reference (position : List Nibble)
deriving DecidableEq

namespace CachedNode

/-- The node after an operation, unless the process panics. -/
def unlessPanic (outcome : Except Fault Bool × CachedNode) : Option CachedNode :=
  if outcome.1 = .error .panic then none else some outcome.2

/-- The node after a call, also after one that returns an error. -/
def call (keccak : Bytes → B256) (node : CachedNode) : NodeCall → Option CachedNode
  | .insert key value => unlessPanic (node.insert key value)
  | .delete key => unlessPanic (node.delete key)
  | .clear => some node.clear
  | .clone => some node.clone
  | .hash position => some (node.modifyAt (fun node => (node.hash keccak).2) position)
  | .reference position => some (node.modifyAt (fun node => (node.reference keccak).2) position)

end CachedNode

/-- The node without caches after a call. -/
def MptNode.afterCall (node : MptNode) : NodeCall → MptNode
  | .insert key value => (node.insert key value).2
  | .delete key => (node.delete key).2
  | .clear => .Null
  | .clone | .hash _ | .reference _ => node

mutual

/-- A node that was built, decoded or deserialised: all caches are empty. -/
def MptNode.uncached : MptNode → CachedNode
  | .Null => .Null none
  | .Branch children => .Branch none fun i => uncachedChild (children i)
  | .Leaf path value => .Leaf none path value
  | .Extension path child => .Extension none path child.uncached
  | .Digest digest => .Digest none digest

def MptNode.uncachedChild : Option MptNode → Option CachedNode
  | none => none
  | some child => some child.uncached

end

end FluentStf.Mpt
