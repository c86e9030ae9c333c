import FluentStf.Mpt.StateWitness
import FluentStf.Radix.Leaves

/-! The enumeration of the leaves of a trie. It keeps the nodes that are still to be visited on
a stack, each with the path that leads to it, and rebuilds the key of a leaf from its path. -/
namespace FluentStf.Mpt

open Radix

/-- `nybbles::Nibbles`, a value that holds up to 64 nibbles. -/
structure NibblesLib (Nibbles : Type) where
  default : Nibbles
  push : Nibbles → Nibble → Except Fault Nibbles
  extend : Nibbles → Nibbles → Except Fault Nibbles
  fromNibbles : List Nibble → Except Fault Nibbles
  toVec : Nibbles → List Nibble
  pack : Nibbles → Bytes

/-- What is documented of it: up to 64 nibbles it is a vector of nibbles. The last nibble of
an odd number is packed into the upper half of a byte. -/
structure NibblesLib.Lawful {Nibbles : Type} (lib : NibblesLib Nibbles) : Prop where
  default : lib.toVec lib.default = []
  push : ∀ path i, (lib.toVec path).length < 64 →
    ∃ next, lib.push path i = .ok next ∧ lib.toVec next = lib.toVec path ++ [i]
  extend : ∀ path other, (lib.toVec path).length + (lib.toVec other).length ≤ 64 →
    ∃ next, lib.extend path other = .ok next ∧ lib.toVec next = lib.toVec path ++ lib.toVec other
  fromNibbles : ∀ nibs : List Nibble, nibs.length ≤ 64 →
    ∃ path, lib.fromNibbles nibs = .ok path ∧ lib.toVec path = nibs
  pack : ∀ path, lib.pack path =
    packNibs (lib.toVec path ++ List.replicate ((lib.toVec path).length % 2) 0)

namespace MptNode

mutual

/-- The number of nodes. -/
def size : MptNode → Nat
  | .Branch children => 1 + ((List.finRange 16).map fun i => sizeChild (children i)).sum
  | .Extension _ child => 1 + child.size
  | _ => 1

def sizeChild : Option MptNode → Nat
  | none => 0
  | some child => child.size

end

theorem size_pos (node : MptNode) : 0 < node.size := by
  cases node <;> simp only [size] <;> omega

theorem size_remaining (children : Nibble → Option MptNode) :
    ((remaining children).map fun entry => entry.2.size).sum =
      ((List.finRange 16).map fun i => sizeChild (children i)).sum := by
  rw [remaining]
  induction List.finRange 16 with
  | nil => rfl
  | cons i l ih =>
      cases hi : children i with
      | none => simp [hi, ih, sizeChild]
      | some child => simp [hi, ih, sizeChild]

section Loop

variable {Nibbles : Type} (lib : NibblesLib Nibbles)

/-- The path of a node on the stack, followed by the path of the node itself. -/
def extendPath (path : Nibbles) (pathBytes : Bytes) : Except Fault Nibbles := do
  let nibs ← prefixNibs pathBytes
  let own ← lib.fromNibbles nibs
  lib.extend path own

/-- The present children of a branch with their paths, in the order in which they are pushed
onto the stack. -/
def pushedChildren (path : Nibbles) (children : Nibble → Option MptNode) :
    Except Fault (List (MptNode × Nibbles)) :=
  (remaining children).mapM fun (i, n) => do
    let newPath ← lib.push path i
    return (n, newPath)

theorem fst_pushedChildren {path : Nibbles} {children : Nibble → Option MptNode}
    {pushed : List (MptNode × Nibbles)} (h : pushedChildren lib path children = .ok pushed) :
    pushed.map Prod.fst = (remaining children).map Prod.snd := by
  unfold pushedChildren at h
  generalize remaining children = entries at h ⊢
  induction entries generalizing pushed with
  | nil =>
      cases h
      rfl
  | cons entry rest ih =>
      rw [List.mapM_cons] at h
      obtain ⟨first, hfirst, h⟩ := bind_eq_ok.mp h
      obtain ⟨others, hothers, h⟩ := bind_eq_ok.mp h
      obtain ⟨newPath, -, hfirst⟩ := bind_eq_ok.mp hfirst
      cases hfirst
      cases h
      rw [List.map_cons, List.map_cons, ih hothers]

/-- The number of nodes that are still to be visited. -/
def stackSize (stack : List (MptNode × Nibbles)) : Nat := (stack.map fun entry => entry.1.size).sum

theorem stackSize_cons (entry : MptNode × Nibbles) (stack : List (MptNode × Nibbles)) :
    stackSize (entry :: stack) = entry.1.size + stackSize stack := by
  rw [stackSize, List.map_cons, List.sum_cons, stackSize]

theorem stackSize_popped (entry : MptNode × Nibbles) (stack : List (MptNode × Nibbles)) :
    stackSize stack < stackSize (entry :: stack) := by
  have := entry.1.size_pos
  rw [stackSize_cons]
  omega

theorem stackSize_child (pathBytes : Bytes) (child : MptNode) (path newPath : Nibbles)
    (stack : List (MptNode × Nibbles)) : stackSize ((child, newPath) :: stack) <
      stackSize ((.Extension pathBytes child, path) :: stack) := by
  rw [stackSize_cons, stackSize_cons]
  simp only [size]
  omega

theorem stackSize_pushed {path : Nibbles} {children : Nibble → Option MptNode}
    {pushed stack : List (MptNode × Nibbles)} (h : pushedChildren lib path children = .ok pushed) :
    stackSize (pushed.reverse ++ stack) < stackSize ((.Branch children, path) :: stack) := by
  have hsizes : (pushed.map fun entry => entry.1.size).sum =
      ((remaining children).map fun entry => entry.2.size).sum := by
    have hmap := congrArg (fun l => (l.map size).sum) (fst_pushedChildren lib h)
    simpa only [List.map_map, Function.comp_def] using hmap
  have happend : stackSize (pushed.reverse ++ stack) =
      (pushed.map fun entry => entry.1.size).sum + stackSize stack := by
    simp [stackSize]
  rw [happend, hsizes, size_remaining, stackSize_cons]
  simp only [size]
  omega

/-- The loop of `for_each_leaves`. The head of the list is the top of the stack. The function
that is called for the leaves may change its own state, and may panic. -/
def visitStack {σ : Type} (f : σ → Bytes → Bytes → Except Fault σ) :
    List (MptNode × Nibbles) → σ → Except Fault σ
  | [], s => .ok s
  | (.Null, _) :: stack, s => visitStack f stack s
  | (.Digest _, _) :: stack, s => visitStack f stack s
  | (.Branch children, path) :: stack, s =>
      match _h : pushedChildren lib path children with
      | .error e => .error e
      | .ok pushed => visitStack f (pushed.reverse ++ stack) s
  | (.Leaf pathBytes value, path) :: stack, s =>
      match extendPath lib path pathBytes with
      | .error e => .error e
      | .ok fullPath =>
          match f s (lib.pack fullPath) value with
          | .error e => .error e
          | .ok s => visitStack f stack s
  | (.Extension pathBytes child, path) :: stack, s =>
      match extendPath lib path pathBytes with
      | .error e => .error e
      | .ok newPath => visitStack f ((child, newPath) :: stack) s
termination_by stack => stackSize stack
decreasing_by
  · exact stackSize_popped _ _
  · exact stackSize_popped _ _
  · exact stackSize_pushed lib ‹_›
  · exact stackSize_popped _ _
  · exact stackSize_child _ _ _ _ _

def forEachLeaves {σ : Type} (node : MptNode) (f : σ → Bytes → Bytes → Except Fault σ) (s : σ) :
    Except Fault σ :=
  visitStack lib f [(node, lib.default)] s

section Steps

variable {lib} {σ : Type} {f : σ → Bytes → Bytes → Except Fault σ} {path newPath : Nibbles}
  {stack : List (MptNode × Nibbles)} {s : σ}

theorem visitStack_leaf {pathBytes value : Bytes}
    (h : extendPath lib path pathBytes = .ok newPath) :
    visitStack lib f ((.Leaf pathBytes value, path) :: stack) s =
      f s (lib.pack newPath) value >>= visitStack lib f stack := by
  rw [visitStack]
  simp only [h]
  cases f s (lib.pack newPath) value <;> rfl

theorem visitStack_extension {pathBytes : Bytes} {child : MptNode}
    (h : extendPath lib path pathBytes = .ok newPath) :
    visitStack lib f ((.Extension pathBytes child, path) :: stack) s =
      visitStack lib f ((child, newPath) :: stack) s := by
  rw [visitStack, h]

theorem visitStack_branch {children : Nibble → Option MptNode}
    {pushed : List (MptNode × Nibbles)} (h : pushedChildren lib path children = .ok pushed) :
    visitStack lib f ((.Branch children, path) :: stack) s =
      visitStack lib f (pushed.reverse ++ stack) s := by
  rw [visitStack]
  split
  · next herror => simp [h] at herror
  · next other hother =>
      rw [h] at hother
      rw [Except.ok.inj hother]

/-- Entries of the stack are visited one after the other: if each of them makes certain calls
and then goes on with the rest of the stack, all of them together do. -/
theorem visitStack_append {ι : Type} (entry : ι → MptNode × Nibbles)
    (calls : ι → List (Bytes × Bytes)) (entries : List ι)
    (h : ∀ e ∈ entries, ∀ stack s, visitStack lib f (entry e :: stack) s =
      (calls e).foldlM (fun s leaf => f s leaf.1 leaf.2) s >>= visitStack lib f stack) :
    visitStack lib f (entries.map entry ++ stack) s =
      (entries.flatMap calls).foldlM (fun s leaf => f s leaf.1 leaf.2) s >>=
        visitStack lib f stack := by
  induction entries generalizing s with
  | nil => rfl
  | cons e entries ih =>
      rw [List.map_cons, List.cons_append, h e (.head _), List.flatMap_cons,
        List.foldlM_append, bind_assoc]
      exact bind_congr fun s => ih fun e he => h e (.tail _ he)

end Steps

end Loop

end MptNode

/-- The children of a branch leave the stack in descending order. -/
def popOrder : List Nibble := (List.finRange 16).reverse

theorem mem_popOrder (i : Nibble) : i ∈ popOrder := List.mem_reverse.mpr (List.mem_finRange i)

theorem nodup_popOrder : popOrder.Nodup := List.nodup_reverse.mpr (List.nodup_finRange 16)

/-- The calls for the leaves of a trie at a path, in the order in which they are made. -/
def leafCalls (path : List Nibble) (t : NibbleTrie) : List (Bytes × Bytes) :=
  (under path (t.leaves popOrder)).map fun leaf => (packNibs leaf.1, leaf.2)

theorem leafCalls_ext (path p : List Nibble) (c : NibbleTrie) :
    leafCalls path (.ext p c) = leafCalls (path ++ p) c := by
  rw [leafCalls, leafCalls, Trie.leaves, under_append]

theorem leafCalls_branch (path : List Nibble) (g : Nibble → NibbleTrie) :
    leafCalls path (.branch g) = popOrder.flatMap fun i => leafCalls (path ++ [i]) (g i) := by
  simp only [leafCalls, Trie.leaves, under_append, under_flatMap, List.map_flatMap]

theorem flatMap_filter_eq {ι β : Type} {p : ι → Bool} {f : ι → List β}
    (h : ∀ i, p i = false → f i = []) (l : List ι) : (l.filter p).flatMap f = l.flatMap f := by
  induction l with
  | nil => rfl
  | cons i l ih =>
      cases hi : p i with
      | true => rw [List.filter_cons_of_pos hi, List.flatMap_cons, List.flatMap_cons, ih]
      | false => simp [hi, h i hi, ih]

/-- Absent children do not count. -/
theorem leafCalls_present (path : List Nibble) (g : Nibble → NibbleTrie) :
    ((List.finRange 16).filter fun i => !isNull (g i)).reverse.flatMap
      (fun i => leafCalls (path ++ [i]) (g i)) = leafCalls path (.branch g) := by
  rw [leafCalls_branch, popOrder, ← List.filter_reverse]
  refine flatMap_filter_eq (fun i hi => ?_) _
  have hnull : g i = .null := isNull_iff.mp (by simpa using hi)
  rw [hnull]
  rfl

/-- A trie at a path such that no key is longer than 64 nibbles, and every key of a value is
that of a byte string. -/
structure Placed (path : List Nibble) (t : NibbleTrie) : Prop where
  canonical : t.Canonical
  short : ∀ q x, t.entry q = some x → path.length + q.length ≤ 64
  even : ∀ q v, t.entry q = some (.inl v) → (path.length + q.length) % 2 = 0

namespace Placed

variable {path : List Nibble}

theorem length_le {t : NibbleTrie} (h : Placed path t) (hne : t ≠ .null) : path.length ≤ 64 := by
  obtain ⟨q, x, hq⟩ := h.canonical.exists_entry hne
  have := h.short q x hq
  omega

theorem ext_child {p : List Nibble} {c : NibbleTrie} (h : Placed path (.ext p c)) :
    Placed (path ++ p) c where
  canonical := h.canonical.2.2
  short q x hq := by
    have := h.short (p ++ q) x (by rwa [Trie.entry_ext_append])
    rw [List.length_append] at this ⊢
    omega
  even q v hq := by
    have := h.even (p ++ q) v (by rwa [Trie.entry_ext_append])
    rw [List.length_append] at this ⊢
    omega

theorem branch_child {g : Nibble → NibbleTrie} (h : Placed path (.branch g)) (i : Nibble) :
    Placed (path ++ [i]) (g i) where
  canonical := h.canonical.1 i
  short q x hq := by
    have := h.short (i :: q) x hq
    rw [List.length_cons] at this
    rw [List.length_append, List.length_singleton]
    omega
  even q v hq := by
    have := h.even (i :: q) v hq
    rw [List.length_cons] at this
    rw [List.length_append, List.length_singleton]
    omega

end Placed

section Lawful

variable {Nibbles : Type} {lib : NibblesLib Nibbles} (hlib : lib.Lawful) {path : Nibbles}
include hlib

theorem extendPath_toEncodedPath {p : List Nibble} (isLeaf : Bool)
    (hlength : (lib.toVec path).length + p.length ≤ 64) :
    ∃ next, MptNode.extendPath lib path (toEncodedPath p isLeaf) = .ok next ∧
      lib.toVec next = lib.toVec path ++ p := by
  obtain ⟨own, hown, hvec⟩ := hlib.fromNibbles p (by omega)
  obtain ⟨next, hnext, happend⟩ := hlib.extend path own (by rwa [hvec])
  refine ⟨next, ?_, by rw [happend, hvec]⟩
  exact bind_eq_ok.mpr ⟨p, prefixNibs_toEncodedPath p isLeaf, bind_eq_ok.mpr ⟨own, hown, hnext⟩⟩

theorem pack_even (h : (lib.toVec path).length % 2 = 0) :
    lib.pack path = packNibs (lib.toVec path) := by
  rw [hlib.pack, h, List.replicate_zero, List.append_nil]

/-- The children that are pushed for a branch: those that are present, each with its path. -/
theorem exists_pushed {g : Nibble → NibbleTrie} (h : Placed (lib.toVec path) (.branch g)) :
    ∃ pushed : List (Nibble × Nibbles),
      MptNode.pushedChildren lib path (fun i => toChild (g i)) =
          .ok (pushed.map fun e => (toNode (g e.1), e.2)) ∧
        (∀ e ∈ pushed, lib.toVec e.2 = lib.toVec path ++ [e.1]) ∧
        pushed.map Prod.fst = (List.finRange 16).filter fun i => !isNull (g i) := by
  rw [MptNode.pushedChildren, MptNode.remaining]
  induction List.finRange 16 with
  | nil => exact ⟨[], rfl, List.forall_mem_nil _, rfl⟩
  | cons i l ih =>
      obtain ⟨pushed, hpushed, hpaths, hletters⟩ := ih
      by_cases hi : g i = .null
      · refine ⟨pushed, ?_, hpaths, ?_⟩
        · rw [List.filterMap_cons_none (by simp [hi]), hpushed]
        · rw [List.filter_cons_of_neg (by simp [hi, isNull]), hletters]
      · have hlength := (h.branch_child i).length_le hi
        rw [List.length_append, List.length_singleton] at hlength
        obtain ⟨next, hnext, hvec⟩ := hlib.push path i (by omega)
        refine ⟨(i, next) :: pushed, ?_, List.forall_mem_cons.mpr ⟨hvec, hpaths⟩, ?_⟩
        · rw [List.filterMap_cons_some (by rw [toChild_of_ne hi]; rfl), List.mapM_cons, hpushed]
          simp only [hnext]
          rfl
        · rw [List.filter_cons_of_pos (by simpa using mt isNull_iff.mp hi), List.map_cons, hletters]

/-- A trie on top of the stack: its leaves are visited, and then the rest of the stack. -/
theorem visitStack_toNode {σ : Type} {f : σ → Bytes → Bytes → Except Fault σ} {t : NibbleTrie}
    (h : Placed (lib.toVec path) t) (stack : List (MptNode × Nibbles)) (s : σ) :
    MptNode.visitStack lib f ((toNode t, path) :: stack) s =
      (leafCalls (lib.toVec path) t).foldlM (fun s leaf => f s leaf.1 leaf.2) s >>=
        MptNode.visitStack lib f stack := by
  -- The rest of the stack is arbitrary: below it stand the siblings that are still to come.
  induction t generalizing path stack s with
  | null =>
      rw [toNode, MptNode.visitStack]
      rfl
  | stub d =>
      rw [toNode, MptNode.visitStack]
      rfl
  | leaf p v =>
      have hentry : (Trie.leaf p v : NibbleTrie).entry p = some (.inl v) := by simp [Trie.entry]
      obtain ⟨next, hnext, hvec⟩ :=
        extendPath_toEncodedPath hlib true (h.short p (.inl v) hentry)
      have heven := h.even p v hentry
      rw [← List.length_append, ← hvec] at heven
      rw [toNode, MptNode.visitStack_leaf hnext, pack_even hlib heven, hvec]
      simp [leafCalls, Trie.leaves, under]
  | ext p c ih =>
      have hne : c ≠ .null := by
        rintro rfl
        exact h.canonical.2.1
      have hlength := h.ext_child.length_le hne
      rw [List.length_append] at hlength
      obtain ⟨next, hnext, hvec⟩ := extendPath_toEncodedPath hlib false hlength
      have hchild := h.ext_child
      rw [← hvec] at hchild
      rw [toNode, MptNode.visitStack_extension hnext, ih hchild, leafCalls_ext, hvec]
  | branch g ih =>
      obtain ⟨pushed, hpushed, hpaths, hletters⟩ := exists_pushed hlib h
      have hcalls : pushed.reverse.flatMap (fun e => leafCalls (lib.toVec path ++ [e.1]) (g e.1)) =
          leafCalls (lib.toVec path) (.branch g) := by
        rw [← leafCalls_present, ← hletters, ← List.map_reverse, List.flatMap_map]
      rw [toNode_branch, MptNode.visitStack_branch hpushed, ← List.map_reverse, ← hcalls]
      refine MptNode.visitStack_append _ _ pushed.reverse fun e he stack s => ?_
      have hpath := hpaths e (List.mem_reverse.mp he)
      have hchild := h.branch_child e.1
      rw [← hpath] at hchild ⊢
      exact ih e.1 hchild stack s

theorem forEachLeaves_toNode {σ : Type} (f : σ → Bytes → Bytes → Except Fault σ) (s : σ)
    {t : NibbleTrie} (h : Placed [] t) : (toNode t).forEachLeaves lib f s =
      (leafCalls [] t).foldlM (fun s leaf => f s leaf.1 leaf.2) s := by
  rw [← hlib.default] at h ⊢
  rw [MptNode.forEachLeaves, visitStack_toNode hlib h]
  have hend : MptNode.visitStack lib f [] = pure := by
    funext s
    rw [MptNode.visitStack]
    rfl
  rw [hend, bind_pure]

end Lawful

section Calls

variable {t : NibbleTrie}

/-- Keys of values are the nibbles of the bytes that they are packed into. -/
theorem toNibs_packNibs_leaf (h : Placed [] t) {leaf : List Nibble × Bytes}
    (hleaf : leaf ∈ t.leaves popOrder) :
    toNibs (packNibs leaf.1) = leaf.1 := by
  refine toNibs_packNibs leaf.1 ?_
  simpa using h.even leaf.1 leaf.2 ((Trie.mem_leaves mem_popOrder).mp hleaf)

/-- There is a call for each value, with the bytes of its key. -/
theorem mem_leafCalls (h : Placed [] t) {key value : Bytes} :
    (key, value) ∈ leafCalls [] t ↔ t.entry (toNibs key) = some (.inl value) := by
  rw [leafCalls, under_nil_path, List.mem_map, ← Trie.mem_leaves mem_popOrder]
  constructor
  · rintro ⟨leaf, hleaf, heq⟩
    cases heq
    rwa [toNibs_packNibs_leaf h hleaf]
  · intro hmem
    exact ⟨_, hmem, by rw [packNibs_toNibs]⟩

/-- There is only one call for each key. -/
theorem nodup_leafCalls (h : Placed [] t) : ((leafCalls [] t).map Prod.fst).Nodup := by
  have hkeys := Trie.nodup_leaves nodup_popOrder t
  rw [leafCalls, under_nil_path]
  have hsame : (((t.leaves popOrder).map fun leaf => (packNibs leaf.1, leaf.2)).map
      Prod.fst).map toNibs = (t.leaves popOrder).map Prod.fst := by
    rw [List.map_map, List.map_map]
    exact List.map_congr_left fun leaf hleaf => toNibs_packNibs_leaf h hleaf
  refine List.Nodup.of_map toNibs ?_
  rwa [hsame]

theorem get_eq_some_iff {key value : Bytes} :
    (toNode t).get key = .ok (some value) ↔ t.entry (toNibs key) = some (.inl value) := by
  rw [MptNode.get, getInternal_toNode, ← Trie.lookup_eq_some_iff]
  cases t.lookup (toNibs key) with
  | error d => simp only [lookupResult, reduceCtorEq]
  | ok found => simp only [lookupResult, Except.ok.injEq]

/-- Views of a trie over keys of at most 32 bytes. -/
theorem Represents.placed {keccak : Bytes → B256} {w : NibbleTrie}
    {contents : Bytes → Option Bytes} (h : Represents t contents)
    (hlength : ∀ key, contents key ≠ none → key.length ≤ 32)
    (hview : Trie.View (Hides keccak) w t) : Placed [] w where
  canonical := Trie.view_canonical (not_hides_null keccak) hview h.canonical
  short q x hq := by
    obtain ⟨r, y, hr⟩ := Trie.exists_entry_of_view (not_hides_null keccak) hview h.canonical hq
    obtain ⟨key, hkey⟩ := h.key _ y hr
    have hle : key.length ≤ 32 := hlength key fun hnone => by
      rw [hkey, h.entry, hnone] at hr
      cases hr
    have hnibs := congrArg List.length hkey
    rw [List.length_append, toNibs_length] at hnibs
    rw [List.length_nil]
    omega
  even q v hq := by
    obtain ⟨key, rfl⟩ := h.key q _ (Trie.view_entry_inl hview hq)
    rw [toNibs_length, List.length_nil]
    omega

end Calls

/-- On every partial view of a trie over keys of at most 32 bytes, `for_each_leaves` calls its
function once for each key that can be read, and for nothing else. -/
theorem leaves_visited_once (keccak : Bytes → B256) {Nibbles : Type} {lib : NibblesLib Nibbles}
    (hlib : lib.Lawful) (calls : List Call)
    (hkeys : PrefixFree {key | ∃ call ∈ calls, call.key = key})
    (hlength : ∀ call ∈ calls, call.key.length ≤ 32) {view : MptNode}
    (hview : PartialView keccak view (trieOf calls)) :
    ∃ leaves : List (Bytes × Bytes), (leaves.map Prod.fst).Nodup ∧
      (∀ key value, (key, value) ∈ leaves ↔ view.get key = .ok (some value)) ∧
      ∀ {σ : Type} (f : σ → Bytes → Bytes → Except Fault σ) (s : σ),
        view.forEachLeaves lib f s = leaves.foldlM (fun s leaf => f s leaf.1 leaf.2) s := by
  obtain ⟨t, hnode, ht⟩ := trieOf_represents (calls.filter fun call => call.Allowed) hkeys
    fun call hcall => by
      obtain ⟨hmem, hallowed⟩ := List.mem_filter.mp hcall
      exact ⟨by simpa using hallowed, call, hmem, rfl⟩
  have hshort : ∀ key, contentsOf (calls.filter fun call => call.Allowed) key ≠ none →
      key.length ≤ 32 := by
    intro key hkey
    obtain ⟨value, hvalue⟩ := Option.ne_none_iff_exists'.mp hkey
    exact hlength _ (List.mem_filter.mp (insert_mem_of_contents hvalue)).1
  rw [trieOf, ← runCalls_allowed, ← trieOf, hnode] at hview
  obtain ⟨w, rfl, hw⟩ := partialView_toNode hview
  have hplaced := ht.placed hshort hw
  refine ⟨leafCalls [] w, nodup_leafCalls hplaced, fun key value => ?_, fun f s => ?_⟩
  · rw [mem_leafCalls hplaced, get_eq_some_iff]
  · exact forEachLeaves_toNode hlib f s hplaced

/-- Nibbles in a list of at most 64. -/
def vecNibbles : NibblesLib (List Nibble) where
  default := []
  push path i := if path.length < 64 then .ok (path ++ [i]) else .error .panic
  extend path other :=
    if path.length + other.length ≤ 64 then .ok (path ++ other) else .error .panic
  fromNibbles nibs := if nibs.length ≤ 64 then .ok nibs else .error .panic
  toVec path := path
  pack path := packNibs (path ++ List.replicate (path.length % 2) 0)

theorem vecNibbles_lawful : vecNibbles.Lawful where
  default := rfl
  push path i h := ⟨path ++ [i], if_pos h, rfl⟩
  extend path other h := ⟨path ++ other, if_pos h, rfl⟩
  fromNibbles nibs h := ⟨nibs, if_pos h, rfl⟩
  pack _ := rfl

theorem leaves_visited_once_hidden :
    hiddenSibling.get (List.replicate 32 0) = .ok (some [1]) ∧
      ∃ leaves : List (Bytes × Bytes), (leaves.map Prod.fst).Nodup ∧
        (∀ key value, (key, value) ∈ leaves ↔ hiddenSibling.get key = .ok (some value)) ∧
        ∀ {σ : Type} (f : σ → Bytes → Bytes → Except Fault σ) (s : σ),
          hiddenSibling.forEachLeaves vecNibbles f s =
            leaves.foldlM (fun s leaf => f s leaf.1 leaf.2) s := by
  have hlength : ∀ call ∈ twoAccounts, call.key.length = 32 := by
    simp [twoAccounts, Call.key]
  refine ⟨by decide +kernel, leaves_visited_once (tableHash twoAccountsDigests)
    vecNibbles_lawful twoAccounts (prefixFree_calls hlength)
    (fun call hcall => (hlength call hcall).le) hiddenSibling_view⟩

end FluentStf.Mpt
