import FluentStf.Mpt.Node
import FluentStf.Radix.Trie

/-! Lookup, insertion and deletion on the nodes of the sparse trie, as the
source performs them. Operations that change a node return the node as it is
left behind next to their result, also when the result is an error. -/
namespace FluentStf.Mpt

/-- The outcome of an operation on a mutable node. -/
abbrev Outcome := Except Fault Bool × MptNode

namespace MptNode

def nibs : MptNode → Except Fault (List Nibble)
  | .Null => .ok []
  | .Branch _ => .ok []
  | .Digest _ => .ok []
  | .Leaf path _ => prefixNibs path
  | .Extension path _ => prefixNibs path

mutual

/-- Look up the rest of a key. A digest on the path is an error. -/
def getInternal : MptNode → List Nibble → Except Fault (Option Bytes)
  | .Null, _ => .ok none
  | .Branch children, keyNibs => match keyNibs with
    | i :: tail => getChild (children i) tail
    | [] => .ok none
  | .Leaf path value, keyNibs => match prefixNibs path with
    | .error e => .error e
    | .ok selfNibs => if selfNibs = keyNibs then .ok (some value) else .ok none
  | .Extension path child, keyNibs => match prefixNibs path with
    | .error e => .error e
    | .ok selfNibs => match keyNibs.dropPrefix? selfNibs with
      | some tail => child.getInternal tail
      | none => .ok none
  | .Digest digest, _ => .error (.error (.NodeNotResolved digest))

def getChild : Option MptNode → List Nibble → Except Fault (Option Bytes)
  | some node, tail => node.getInternal tail
  | none, _ => .ok none

end

def get (node : MptNode) (key : Bytes) : Except Fault (Option Bytes) :=
  node.getInternal (toNibs key)

/-- The children array with one or two leaves of a split, all others absent. -/
def splitChildren (i : Nibble) (old : MptNode) (j : Nibble) (new : MptNode) :
    Nibble → Option MptNode :=
  Function.update (Function.update (fun _ => none) i (some old)) j (some new)

/-- A branch made by a split, under an extension for the common part if any. -/
def splitNode (selfNibs : List Nibble) (commonLen : Nat) (branch : MptNode) : MptNode :=
  if commonLen > 0 then .Extension (toEncodedPath (selfNibs.take commonLen) false) branch
  else branch

mutual

/-- Put a value under the rest of a key. The answer is `false` if it was there already. -/
def insertInternal : MptNode → List Nibble → Bytes → Outcome
  | .Null, keyNibs, value => (.ok true, .Leaf (toEncodedPath keyNibs true) value)
  | .Branch children, keyNibs, value => match keyNibs with
    | i :: tail =>
        let (result, child) := insertChild (children i) tail value
        (result, .Branch (Function.update children i child))
    | [] => (.error (.error .ValueInBranch), .Branch children)
  | .Leaf path oldValue, keyNibs, value => match prefixNibs path with
    | .error e => (.error e, .Leaf path oldValue)
    | .ok selfNibs =>
        let commonLen := lcp selfNibs keyNibs
        if commonLen = selfNibs.length ∧ commonLen = keyNibs.length then
          if oldValue = value then (.ok false, .Leaf path oldValue)
          else (.ok true, .Leaf path value)
        else if commonLen = selfNibs.length ∨ commonLen = keyNibs.length then
          (.error (.error .ValueInBranch), .Leaf path oldValue)
        else
          let splitPoint := commonLen + 1
          match selfNibs[commonLen]?, keyNibs[commonLen]? with
          | some i, some j =>
              let children := splitChildren
                i (.Leaf (toEncodedPath (selfNibs.drop splitPoint) true) oldValue)
                j (.Leaf (toEncodedPath (keyNibs.drop splitPoint) true) value)
              (.ok true, splitNode selfNibs commonLen (.Branch children))
          | _, _ => (.error .panic, .Leaf path oldValue)
  | .Extension path existingChild, keyNibs, value => match prefixNibs path with
    | .error e => (.error e, .Extension path existingChild)
    | .ok selfNibs =>
        let commonLen := lcp selfNibs keyNibs
        if commonLen = selfNibs.length then
          let (result, child) := existingChild.insertInternal (keyNibs.drop commonLen) value
          (result, .Extension path child)
        else if commonLen = keyNibs.length then
          (.error (.error .ValueInBranch), .Extension path existingChild)
        else
          let splitPoint := commonLen + 1
          match selfNibs[commonLen]?, keyNibs[commonLen]? with
          | some i, some j =>
              let old := if splitPoint < selfNibs.length then
                  .Extension (toEncodedPath (selfNibs.drop splitPoint) false) existingChild
                else existingChild
              let children := splitChildren i old
                j (.Leaf (toEncodedPath (keyNibs.drop splitPoint) true) value)
              (.ok true, splitNode selfNibs commonLen (.Branch children))
          | _, _ => (.error .panic, .Extension path existingChild)
  | .Digest digest, _, _ => (.error (.error (.NodeNotResolved digest)), .Digest digest)

def insertChild : Option MptNode → List Nibble → Bytes → Except Fault Bool × Option MptNode
  | some node, tail, value =>
      let (result, child) := node.insertInternal tail value
      (result, some child)
  | none, tail, value => (.ok true, some (.Leaf (toEncodedPath tail true) value))

end

/-- An empty value makes the process panic. -/
def insert (node : MptNode) (key value : Bytes) : Outcome :=
  if value = [] then (.error .panic, node) else node.insertInternal (toNibs key) value

/-- The present children of a branch with their positions, in ascending order. -/
def remaining (children : Nibble → Option MptNode) : List (Nibble × MptNode) :=
  (List.finRange 16).filterMap fun i => (children i).map (i, ·)

/-- What a branch becomes once a child was changed by a deletion: it is kept
while two children remain, otherwise its last child takes its place. -/
def collapse (children : Nibble → Option MptNode) : Outcome :=
  match remaining children with
  | [] => (.error .panic, .Branch children)
  | [(index, orphan)] => match orphan with
    | .Leaf path orphanValue => match prefixNibs path with
      | .error e => (.error e, .Branch children)
      | .ok nibs => (.ok true, .Leaf (toEncodedPath (index :: nibs) true) orphanValue)
    | .Extension path orphanChild => match prefixNibs path with
      | .error e => (.error e, .Branch children)
      | .ok nibs => (.ok true, .Extension (toEncodedPath (index :: nibs) false) orphanChild)
    | .Branch grandchildren =>
        (.ok true, .Extension (toEncodedPath [index] false) (.Branch grandchildren))
    | .Digest digest => (.ok true, .Extension (toEncodedPath [index] false) (.Digest digest))
    | .Null => (.error .panic, .Branch children)
  | _ => (.ok true, .Branch children)

/-- What an extension becomes once its child was changed by a deletion. -/
def mergeExtension (path : Bytes) (selfNibs : List Nibble) (child : MptNode) : Outcome :=
  match child with
  | .Null => (.ok true, .Null)
  | .Leaf childPath value => match prefixNibs childPath with
    | .error e => (.error e, .Extension path child)
    | .ok nibs => (.ok true, .Leaf (toEncodedPath (selfNibs ++ nibs) true) value)
  | .Extension childPath node => match prefixNibs childPath with
    | .error e => (.error e, .Extension path child)
    | .ok nibs => (.ok true, .Extension (toEncodedPath (selfNibs ++ nibs) false) node)
  | .Branch _ => (.ok true, .Extension path child)
  | .Digest _ => (.ok true, .Extension path child)

mutual

/-- Remove the rest of a key. A branch that is left with one child is merged with it. -/
def deleteInternal : MptNode → List Nibble → Outcome
  | .Null, _ => (.ok false, .Null)
  | .Branch children, keyNibs => match keyNibs with
    | i :: tail =>
        let (result, child) := deleteChild (children i) tail
        match result with
        | .ok true => collapse (Function.update children i child)
        | other => (other, .Branch (Function.update children i child))
    | [] => (.error (.error .ValueInBranch), .Branch children)
  | .Leaf path value, keyNibs => match prefixNibs path with
    | .error e => (.error e, .Leaf path value)
    | .ok selfNibs =>
        if selfNibs ≠ keyNibs then (.ok false, .Leaf path value) else (.ok true, .Null)
  | .Extension path child, keyNibs => match prefixNibs path with
    | .error e => (.error e, .Extension path child)
    | .ok selfNibs => match keyNibs.dropPrefix? selfNibs with
      | some tail =>
          let (result, child) := child.deleteInternal tail
          match result with
          | .ok true => mergeExtension path selfNibs child
          | other => (other, .Extension path child)
      | none => (.ok false, .Extension path child)
  | .Digest digest, _ => (.error (.error (.NodeNotResolved digest)), .Digest digest)

/-- A child emptied by the deletion is removed from the array. -/
def deleteChild : Option MptNode → List Nibble → Except Fault Bool × Option MptNode
  | some node, tail =>
      let (result, child) := node.deleteInternal tail
      match result with
      | .ok true => (.ok true, if child.isEmpty then none else some child)
      | other => (other, some child)
  | none, _ => (.ok false, none)

end

def delete (node : MptNode) (key : Bytes) : Outcome := node.deleteInternal (toNibs key)

end MptNode

end FluentStf.Mpt
