import FluentStf.Mpt.SparseUpdate
import FluentStf.Radix.Position

/-! Tries from proofs. A proof lists the nodes on the paths of some keys, each
with its larger children given by digests only. The nodes are put into a store
under their references, and a trie is obtained by looking up digests there. -/
namespace FluentStf.Mpt

open Radix

/-- Nodes by their references. -/
abbrev NodeStore := MptNodeReference → Option MptNode

namespace NodeStore

def empty : NodeStore := fun _ => none

def insert (store : NodeStore) (reference : MptNodeReference) (node : MptNode) : NodeStore :=
  Function.update store reference (some node)

/-- A node that is already there is kept. -/
def orInsert (store : NodeStore) (reference : MptNodeReference) (node : MptNode) : NodeStore :=
  if (store reference).isSome then store else store.insert reference node

end NodeStore

/-- The children of a branch once each of them was resolved. An absent child
needs no fuel. -/
def resolvedChildren (results : Nibble → Option (Option MptNode)) :
    Option (Nibble → Option MptNode) :=
  if ∀ i, (results i).all Option.isSome = true then some fun i => (results i).join else none

/-- Replace every digest that is in the store. The fuel bounds the depth of the
recursion, which nothing bounds in the source. -/
def resolveNodes (nodeStore : NodeStore) : Nat → MptNode → Option MptNode
  | 0, _ => none
  | _ + 1, .Null => some .Null
  | _ + 1, .Leaf path value => some (.Leaf path value)
  | fuel + 1, .Branch children =>
      (resolvedChildren fun i => (children i).map (resolveNodes nodeStore fuel)).map .Branch
  | fuel + 1, .Extension path target =>
      (resolveNodes nodeStore fuel target).map (.Extension path)
  | fuel + 1, .Digest digest => match nodeStore (.Digest digest) with
    | some node => resolveNodes nodeStore fuel node
    | none => some (.Digest digest)

theorem resolvedChildren_eq_some {results : Nibble → Option (Option MptNode)}
    {children : Nibble → Option MptNode} :
    resolvedChildren results = some children ↔ ∀ i, results i = (children i).map some := by
  rw [resolvedChildren]
  constructor
  · intro h i
    split_ifs at h with hall
    cases h
    have hi := hall i
    cases hr : results i with
    | none => simp [hr]
    | some result =>
        cases result with
        | none => simp [hr] at hi
        | some node => simp [hr]
  · intro h
    have hall : ∀ i, (results i).all Option.isSome = true := by
      intro i
      rw [h i]
      cases children i <;> rfl
    rw [if_pos hall]
    refine congrArg some (funext fun i => ?_)
    rw [h i]
    cases children i <;> rfl

/-- More fuel does not change a result. -/
theorem resolveNodes_mono {store : NodeStore} {fuel more : Nat} (hle : fuel ≤ more)
    {node trie : MptNode} (h : resolveNodes store fuel node = some trie) :
    resolveNodes store more node = some trie := by
  induction fuel generalizing more node trie with
  | zero => cases h
  | succ fuel ih =>
      obtain ⟨more, rfl⟩ : ∃ n, more = n + 1 := ⟨more - 1, by omega⟩
      have hle' : fuel ≤ more := by omega
      cases node with
      | Null => exact h
      | Leaf path value => exact h
      | Extension path child =>
          rw [resolveNodes, Option.map_eq_some_iff] at h ⊢
          obtain ⟨resolved, hchild, rfl⟩ := h
          exact ⟨resolved, ih hle' hchild, rfl⟩
      | Digest digest =>
          rw [resolveNodes] at h ⊢
          cases hnode : store (.Digest digest) with
          | none =>
              rw [hnode] at h
              exact h
          | some node =>
              rw [hnode] at h
              exact ih hle' h
      | Branch children =>
          rw [resolveNodes, Option.map_eq_some_iff] at h ⊢
          obtain ⟨resolved, hchildren, rfl⟩ := h
          refine ⟨resolved, resolvedChildren_eq_some.mpr fun i => ?_, rfl⟩
          -- Every child was resolved, so it is resolved in the same way again.
          have hi := resolvedChildren_eq_some.mp hchildren i
          cases hchild : children i with
          | none => rw [← hi, hchild, Option.map_none, Option.map_none]
          | some child =>
              rw [hchild, Option.map_some] at hi
              obtain ⟨shown, hshown, hresult⟩ := Option.map_eq_some_iff.mp hi.symm
              rw [Option.map_some, ih hle' hresult.symm, hshown, Option.map_some]

/-- All nodes that can be created by shortening the path of the given node. -/
def shortenNodePath (node : MptNode) : Except Fault (List MptNode) :=
  match node.nibs with
  | .error e => .error e
  | .ok nibs => .ok (match node with
    | .Null => []
    | .Branch _ => []
    | .Digest _ => []
    | .Leaf _ value => (List.range (nibs.length + 1)).map fun i =>
        .Leaf (toEncodedPath (nibs.drop i) true) value
    | .Extension _ child => (List.range (nibs.length + 1)).map fun i =>
        .Extension (toEncodedPath (nibs.drop i) false) child)

section

variable (keccak : Bytes → B256)

/-- The nodes of the proof before the transition. -/
def beforeStore (nodes : List MptNode) : NodeStore :=
  nodes.foldl (fun store node => store.insert (node.reference keccak) node) .empty

/-- Add a node of the proof after the transition, and its shortened forms. -/
def addAfter (store : NodeStore) (node : MptNode) : Except Fault NodeStore :=
  match shortenNodePath node with
  | .error e => .error e
  | .ok shortNodes => .ok (shortNodes.foldl
      (fun store shortNode => store.orInsert (shortNode.reference keccak) shortNode)
      (store.orInsert (node.reference keccak) node))

def addAfters : NodeStore → List MptNode → Except Fault NodeStore
  | store, [] => .ok store
  | store, node :: nodes => match addAfter keccak store node with
    | .error e => .error e
    | .ok store => addAfters store nodes

/-- The store of both proofs. -/
def transitionStore (before after : List MptNode) : Except Fault NodeStore :=
  addAfters keccak (beforeStore keccak before) after

namespace MptNode

/-- A child that is referred to by a digest is not shown. -/
def orDigest (child shown : MptNode) : MptNode :=
  match child.reference keccak with
  | .Digest digest => .Digest digest
  | .Bytes _ => shown

mutual

/-- A node as it stands in a proof. -/
def shallow : MptNode → MptNode
  | .Branch children => .Branch fun i => shallowChild (children i)
  | .Extension path child => .Extension path (child.orDigest keccak child.shallow)
  | other => other

def shallowChild : Option MptNode → Option MptNode
  | none => none
  | some child => some (child.orDigest keccak child.shallow)

end

mutual

/-- The nodes whose positions are initial parts of the key. -/
def pathNodes : MptNode → List Nibble → List MptNode
  | .Branch children, keyNibs => .Branch children :: match keyNibs with
    | i :: tail => pathNodesChild (children i) tail
    | [] => []
  | .Extension path child, keyNibs => .Extension path child :: match prefixNibs path with
    | .error _ => []
    | .ok selfNibs => match keyNibs.dropPrefix? selfNibs with
      | some tail => child.pathNodes tail
      | none => []
  | other, _ => [other]

def pathNodesChild : Option MptNode → List Nibble → List MptNode
  | some child, tail => child.pathNodes tail
  | none, _ => []

end

variable {keccak}

theorem shallowChild_eq (child : Option MptNode) :
    shallowChild keccak child =
      child.map fun child => child.orDigest keccak (child.shallow keccak) := by
  cases child <;> rfl

theorem reference_orDigest {child shown : MptNode}
    (h : shown.reference keccak = child.reference keccak) :
    (child.orDigest keccak shown).reference keccak = child.reference keccak := by
  rw [orDigest]
  cases hc : child.reference keccak with
  | Digest d => rfl
  | Bytes b => rw [h, hc]

/-- Proofs do not change references. -/
theorem reference_shallow (node : MptNode) :
    (node.shallow keccak).reference keccak = node.reference keccak := by
  induction node with
  | Null => rfl
  | Leaf path value => rfl
  | Digest d => rfl
  | Extension path child ih =>
      rw [shallow, reference_extension, reference_extension, encode, encode, reference_orDigest ih]
  | Branch children ih =>
      rw [shallow, reference_branch, reference_branch, encode, encode]
      refine congrArg _ (congrArg _ (funext fun i => ?_))
      rw [shallowChild_eq]
      cases hc : children i with
      | none => rfl
      | some child => exact congrArg some (reference_orDigest (ih i child hc))

end MptNode

/-- The short forms of a node whose path can be read. -/
def shortened (node : MptNode) : List MptNode :=
  match shortenNodePath node with
  | .ok shortNodes => shortNodes
  | .error _ => []

namespace NodeStore

variable {keccak} {store : NodeStore} {nodes : Set MptNode}

/-- The store holds these nodes, each under its reference; of several nodes with
one reference it holds one. -/
structure Holds (keccak : Bytes → B256) (store : NodeStore) (nodes : Set MptNode) : Prop where
  sound : ∀ reference node, store reference = some node →
    node ∈ nodes ∧ node.reference keccak = reference
  full : ∀ node ∈ nodes, store (node.reference keccak) ≠ none

theorem holds_empty (keccak : Bytes → B256) : Holds keccak .empty ∅ where
  sound _ _ h := nomatch h
  full _ h := False.elim h

theorem Holds.insert (h : Holds keccak store nodes) (node : MptNode) :
    Holds keccak (store.insert (node.reference keccak) node) (nodes ∪ {node}) where
  sound reference other hother := by
    rw [NodeStore.insert] at hother
    by_cases hr : reference = node.reference keccak
    · rw [hr, Function.update_self] at hother
      cases hother
      exact ⟨.inr rfl, hr.symm⟩
    · rw [Function.update_of_ne hr] at hother
      exact ⟨.inl (h.sound _ _ hother).1, (h.sound _ _ hother).2⟩
  full other hother := by
    rw [NodeStore.insert]
    by_cases hr : other.reference keccak = node.reference keccak
    · rw [hr, Function.update_self]
      simp
    · rw [Function.update_of_ne hr]
      rcases hother with hold | rfl
      · exact h.full other hold
      · exact (hr rfl).elim

theorem Holds.orInsert (h : Holds keccak store nodes) (node : MptNode) :
    Holds keccak (store.orInsert (node.reference keccak) node) (nodes ∪ {node}) := by
  rw [NodeStore.orInsert]
  split_ifs with hthere
  · refine ⟨fun r other hother => ⟨.inl (h.sound r other hother).1, (h.sound r other hother).2⟩,
      fun other hother => ?_⟩
    rcases hother with hold | rfl
    · exact h.full other hold
    · exact Option.isSome_iff_ne_none.mp hthere
  · exact h.insert node

/-- A loop that adds one node after the other. -/
theorem Holds.foldl (add : NodeStore → MptNode → NodeStore)
    (hadd : ∀ store nodes, Holds keccak store nodes → ∀ node,
      Holds keccak (add store node) (nodes ∪ {node}))
    (h : Holds keccak store nodes) (list : List MptNode) :
    Holds keccak (list.foldl add store) (nodes ∪ {node | node ∈ list}) := by
  induction list generalizing store nodes with
  | nil => simpa using h
  | cons node list ih =>
      have hrest := ih (hadd _ _ h node)
      have hset : nodes ∪ {other | other ∈ node :: list} =
          nodes ∪ {node} ∪ {other | other ∈ list} := by
        ext other
        simp only [Set.mem_union, Set.mem_ofPred_eq, List.mem_cons, Set.mem_singleton_iff,
          or_assoc]
      rw [hset]
      exact hrest

theorem Holds.addAfters (h : Holds keccak store nodes) (after : List MptNode)
    (hnibs : ∀ node ∈ after, ∃ nibs, node.nibs = .ok nibs) :
    ∃ store', FluentStf.Mpt.addAfters keccak store after = .ok store' ∧
      Holds keccak store' (nodes ∪ {node | ∃ a ∈ after, node = a ∨ node ∈ shortened a}) := by
  induction after generalizing store nodes with
  | nil => exact ⟨store, rfl, by simpa using h⟩
  | cons node after ih =>
      obtain ⟨nibs, hn⟩ := hnibs node (by simp)
      have hshort : shortenNodePath node = .ok (shortened node) := by
        rw [shortened]
        cases hs : shortenNodePath node with
        | ok ns => rfl
        | error e => simp [shortenNodePath, hn] at hs
      have hstep := (h.orInsert node).foldl
        (fun store shortNode => store.orInsert (shortNode.reference keccak) shortNode)
        (fun _ _ h => h.orInsert) (shortened node)
      obtain ⟨store', hrun, hholds⟩ := ih hstep fun a ha => hnibs a (.tail _ ha)
      refine ⟨store', ?_, ?_⟩
      · rw [FluentStf.Mpt.addAfters, addAfter, hshort]
        exact hrun
      · have hset : nodes ∪ {other | ∃ a ∈ node :: after, other = a ∨ other ∈ shortened a} =
            nodes ∪ {node} ∪ {other | other ∈ shortened node} ∪
              {other | ∃ a ∈ after, other = a ∨ other ∈ shortened a} := by
          ext other
          simp only [Set.mem_union, Set.mem_ofPred_eq, List.mem_cons, Set.mem_singleton_iff,
            exists_eq_or_imp, or_assoc]
        rw [hset]
        exact hholds

end NodeStore

theorem beforeStore_holds (nodes : List MptNode) :
    NodeStore.Holds keccak (beforeStore keccak nodes) {node | node ∈ nodes} := by
  have h := (NodeStore.holds_empty keccak).foldl
    (fun store node => store.insert (node.reference keccak) node) (fun _ _ h => h.insert) nodes
  rwa [Set.empty_union] at h

/-- The store of two proofs holds their nodes and the short forms of the second. -/
theorem transitionStore_holds (before : List MptNode) {after : List MptNode}
    (hnibs : ∀ node ∈ after, ∃ nibs, node.nibs = .ok nibs) :
    ∃ store, transitionStore keccak before after = .ok store ∧
      store.Holds keccak ({node | node ∈ before} ∪
        {node | ∃ a ∈ after, node = a ∨ node ∈ shortened a}) :=
  (beforeStore_holds keccak before).addAfters after hnibs

end

end FluentStf.Mpt
