import FluentStf.Mpt.Cached

/-! Without its caches a node behaves as the node of the model without caches: the operations
give the same result and the same tree. -/
namespace FluentStf.Mpt.CachedNode

theorem erase_branch_update (cache : CachedReference) (children : Nibble → Option CachedNode)
    (i : Nibble) (child : Option CachedNode) :
    (Branch cache (Function.update children i child)).erase =
      .Branch (Function.update (fun j => eraseChild (children j)) i (eraseChild child)) := by
  rw [erase]
  exact congrArg _ (Function.comp_update eraseChild children i child)

@[simp] theorem erase_splitNode (selfNibs : List Nibble) (commonLen : Nat) (branch : CachedNode) :
    (splitNode selfNibs commonLen branch).erase =
      MptNode.splitNode selfNibs commonLen branch.erase := by
  unfold splitNode MptNode.splitNode
  split <;> rfl

theorem erase_splitChildren (cache : CachedReference) (i j : Nibble) (old new : CachedNode) :
    (Branch cache (splitChildren i old j new)).erase =
      .Branch (MptNode.splitChildren i old.erase j new.erase) := by
  rw [splitChildren, erase_branch_update]
  exact congrArg _ (congrArg (Function.update · j _)
    (Function.comp_update eraseChild (fun _ => none) i (some old)))

@[simp] theorem isEmpty_erase (node : CachedNode) : node.erase.isEmpty = node.isEmpty := by
  cases node <;> rfl

/-- An outcome without the caches of the node. -/
def eraseOutcome (outcome : Except Fault Bool × CachedNode) : Outcome :=
  (outcome.1, outcome.2.erase)

@[simp] theorem eraseOutcome_mk (result : Except Fault Bool) (node : CachedNode) :
    eraseOutcome (result, node) = (result, node.erase) := rfl

theorem eraseOutcome_afterChild (cache : CachedReference) (result : Except Fault Bool)
    (node : CachedReference → CachedNode) (h : (node none).erase = (node cache).erase) :
    eraseOutcome (afterChild cache result node) = (result, (node cache).erase) := by
  unfold afterChild
  split
  · rw [eraseOutcome_mk, h]
  · rfl

theorem eraseOutcome_split (node old : CachedNode) (selfNibs keyNibs : List Nibble)
    (commonLen : Nat) (value : Bytes) :
    eraseOutcome (split node selfNibs commonLen old keyNibs value) =
      match selfNibs[commonLen]?, keyNibs[commonLen]? with
      | some i, some j =>
          let children := MptNode.splitChildren i old.erase
            j (.Leaf (toEncodedPath (keyNibs.drop (commonLen + 1)) true) value)
          (.ok true, MptNode.splitNode selfNibs commonLen (.Branch children))
      | _, _ => (.error .panic, node.erase) := by
  unfold split
  cases selfNibs[commonLen]? with
  | none => rfl
  | some i =>
      cases keyNibs[commonLen]? with
      | none => rfl
      | some j =>
          simp only [eraseOutcome_mk, erase_splitNode, erase_splitChildren]
          rw [erase]

theorem erase_shortenExtension (selfNibs : List Nibble) (splitPoint : Nat) (child : CachedNode) :
    (shortenExtension selfNibs splitPoint child).erase =
      if splitPoint < selfNibs.length then
        .Extension (toEncodedPath (selfNibs.drop splitPoint) false) child.erase
      else child.erase := by
  unfold shortenExtension
  split <;> rfl

/-- Caches do not influence an insertion. -/
theorem eraseOutcome_insertInternal (node : CachedNode) (keyNibs : List Nibble) (value : Bytes) :
    eraseOutcome (node.insertInternal keyNibs value) =
      node.erase.insertInternal keyNibs value := by
  induction node generalizing keyNibs with
  | Null cache => rfl
  | Digest cache digest => rfl
  | Leaf cache path oldValue =>
      simp only [insertInternal, erase, MptNode.insertInternal]
      cases prefixNibs path with
      | error e => rfl
      | ok selfNibs =>
          simp only
          split_ifs
          · rfl
          · rfl
          · rfl
          · exact eraseOutcome_split _ _ _ _ _ _
  | Extension cache path child ih =>
      simp only [insertInternal, erase, MptNode.insertInternal]
      cases prefixNibs path with
      | error e => rfl
      | ok selfNibs =>
          simp only [← ih]
          split_ifs
          · exact eraseOutcome_afterChild _ _ _ rfl
          · rfl
          · rw [eraseOutcome_split, erase_shortenExtension, if_pos (by assumption)]
            rfl
          · rw [eraseOutcome_split, erase_shortenExtension, if_neg (by assumption)]
            rfl
  | Branch cache children ih =>
      cases keyNibs with
      | nil => rfl
      | cons i tail =>
          have hchild : MptNode.insertChild (eraseChild (children i)) tail value =
              ((insertChild (children i) tail value).1,
                eraseChild (insertChild (children i) tail value).2) := by
            cases hchild : children i with
            | none => rfl
            | some child =>
                simp only [eraseChild, MptNode.insertChild, ← ih i child hchild]
                rfl
          simp only [insertInternal, erase, MptNode.insertInternal, hchild]
          rw [eraseOutcome_afterChild cache _ _ rfl, erase_branch_update]

theorem remaining_erase (children : Nibble → Option CachedNode) :
    MptNode.remaining (fun i => eraseChild (children i)) =
      (remaining children).map fun (i, child) => (i, child.erase) := by
  unfold MptNode.remaining remaining
  rw [List.map_filterMap]
  refine List.filterMap_congr fun i _ => ?_
  cases hchild : children i <;> simp [hchild, eraseChild]

theorem eraseOutcome_collapse (children : Nibble → Option CachedNode) :
    eraseOutcome (collapse children) = MptNode.collapse fun i => eraseChild (children i) := by
  unfold collapse MptNode.collapse
  rw [remaining_erase]
  match remaining children with
  | [] => rfl
  | [(index, orphan)] =>
      cases orphan with
      | Null cache => rfl
      | Branch cache grandchildren => rfl
      | Digest cache digest => rfl
      | Leaf cache path value =>
          simp only [List.map_cons, List.map_nil, erase]
          cases prefixNibs path <;> rfl
      | Extension cache path child =>
          simp only [List.map_cons, List.map_nil, erase]
          cases prefixNibs path <;> rfl
  | _ :: _ :: _ => rfl

theorem eraseOutcome_mergeExtension (path : Bytes) (selfNibs : List Nibble) (child : CachedNode) :
    eraseOutcome (mergeExtension path selfNibs child) =
      MptNode.mergeExtension path selfNibs child.erase := by
  cases child with
  | Null cache => rfl
  | Branch cache children => rfl
  | Digest cache digest => rfl
  | Leaf cache childPath value =>
      simp only [mergeExtension, MptNode.mergeExtension, erase]
      cases prefixNibs childPath <;> rfl
  | Extension cache childPath node =>
      simp only [mergeExtension, MptNode.mergeExtension, erase]
      cases prefixNibs childPath <;> rfl

/-- Caches do not influence a deletion. -/
theorem eraseOutcome_deleteInternal (node : CachedNode) (keyNibs : List Nibble) :
    eraseOutcome (node.deleteInternal keyNibs) = node.erase.deleteInternal keyNibs := by
  induction node generalizing keyNibs with
  | Null cache => rfl
  | Digest cache digest => rfl
  | Leaf cache path value =>
      simp only [deleteInternal, erase, MptNode.deleteInternal]
      cases prefixNibs path with
      | error e => rfl
      | ok selfNibs =>
          simp only
          split_ifs <;> rfl
  | Extension cache path child ih =>
      simp only [deleteInternal, erase, MptNode.deleteInternal]
      cases prefixNibs path with
      | error e => rfl
      | ok selfNibs =>
          simp only [← ih]
          cases keyNibs.dropPrefix? selfNibs with
          | none => rfl
          | some tail =>
              simp only
              obtain ⟨result, node⟩ := child.deleteInternal tail
              match result with
              | .ok true => exact eraseOutcome_mergeExtension path selfNibs node
              | .ok false => rfl
              | .error e => rfl
  | Branch cache children ih =>
      cases keyNibs with
      | nil => rfl
      | cons i tail =>
          have hchild : MptNode.deleteChild (eraseChild (children i)) tail =
              ((deleteChild (children i) tail).1,
                eraseChild (deleteChild (children i) tail).2) := by
            cases hchild : children i with
            | none => rfl
            | some child =>
                simp only [eraseChild, deleteChild, MptNode.deleteChild, ← ih i child hchild]
                obtain ⟨result, node⟩ := child.deleteInternal tail
                match result with
                | .ok true =>
                    simp only [eraseOutcome_mk, isEmpty_erase]
                    split <;> rfl
                | .ok false => rfl
                | .error e => rfl
          simp only [deleteInternal, erase, MptNode.deleteInternal, hchild]
          obtain ⟨result, node⟩ := deleteChild (children i) tail
          match result with
          | .ok true =>
              refine (eraseOutcome_collapse _).trans (congrArg MptNode.collapse ?_)
              exact Function.comp_update eraseChild children i node
          | .ok false => rw [eraseOutcome_mk, erase_branch_update]
          | .error e => rw [eraseOutcome_mk, erase_branch_update]

/-- The operations are those on nodes without caches. -/
theorem eraseOutcome_insert (node : CachedNode) (key value : Bytes) :
    eraseOutcome (node.insert key value) = node.erase.insert key value := by
  unfold insert MptNode.insert
  split
  · rfl
  · exact eraseOutcome_insertInternal node _ value

theorem eraseOutcome_delete (node : CachedNode) (key : Bytes) :
    eraseOutcome (node.delete key) = node.erase.delete key :=
  eraseOutcome_deleteInternal node _

@[simp] theorem clone_eq (node : CachedNode) : node.clone = node := by
  induction node with
  | Null cache => rfl
  | Leaf cache path value => rfl
  | Digest cache digest => rfl
  | Extension cache path child ih => rw [clone, ih]
  | Branch cache children ih =>
      rw [clone]
      refine congrArg _ (funext fun i => ?_)
      cases hchild : children i with
      | none => rfl
      | some child => rw [cloneChild, ih i child hchild]

end FluentStf.Mpt.CachedNode
