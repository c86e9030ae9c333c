import FluentStf.Mpt.Multiproof

/-! What replacing digests by nodes does to a trie. Both ways of building a trie from the nodes
of a proof, the lookup of digests in a store and the replacement along one path, only replace
digests by nodes that have these digests for references. -/
namespace FluentStf.Mpt

section Model

variable (keccak : Bytes → B256)

def isDigestOf (digest : B256) : Option MptNode → Bool
  | some (.Digest other) => other == digest
  | _ => false

/-- The first child that is the digest. -/
def findDigest (digest : B256) (children : Nibble → Option MptNode) : Option Nibble :=
  (List.finRange 16).find? fun i => isDigestOf digest (children i)

/-- Put the rest of a proof, which is the trie below, into the node at `index`. -/
def attach (index : Nat) (node replacement : MptNode) : Except FromProofError MptNode :=
  match replacement.reference keccak with
  | .Bytes _ => .error (.NodeNotFoundByHash (index + 1))
  | .Digest childRef => match node with
    | .Branch children => match findDigest childRef children with
      | some i => .ok (.Branch (Function.update children i (some replacement)))
      | none => .error (.NodeHasInvalidSuccessor index)
    | .Extension path child =>
        if isDigestOf childRef (some child) then .ok (.Extension path replacement)
        else .error (.NodeHasInvalidSuccessor index)
    | .Null => .error (.NodeCannotHaveChildren index)
    | .Leaf _ _ => .error (.NodeCannotHaveChildren index)
    | .Digest _ => .error (.NodeCannotHaveChildren index)

/-- The loop over the nodes of a proof, from the last one. -/
def attachAll : List (MptNode × Nat) → Option MptNode → Except FromProofError (Option MptNode)
  | [], next => .ok next
  | (node, _) :: rest, none => attachAll rest (some node)
  | (node, index) :: rest, some replacement => match attach keccak index node replacement with
    | .error e => .error e
    | .ok resolved => attachAll rest (some resolved)

/-- A trie from the nodes on one path. -/
def mptFromProof (proofNodes : List MptNode) : Except FromProofError MptNode :=
  match attachAll keccak proofNodes.zipIdx.reverse none with
  | .error e => .error e
  | .ok next => .ok (next.getD .Null)

end Model

/-- The digests that are still in a trie. -/
inductive MptNode.Shows : MptNode → B256 → Prop
  | digest (digest) : Shows (.Digest digest) digest
  | extension {path child digest} (h : Shows child digest) : Shows (.Extension path child) digest
  | branch {children i child digest} (hchild : children i = some child) (h : Shows child digest) :
      Shows (.Branch children) digest

/-- Each node is stored under its own reference. -/
def NodeStore.Keyed (keccak : Bytes → B256) (store : NodeStore) : Prop :=
  ∀ reference node, store reference = some node → node.reference keccak = reference

/-- The recursion of `resolveNodes` without a bound. -/
inductive Resolves (store : NodeStore) : MptNode → MptNode → Prop
  | null : Resolves store .Null .Null
  | leaf (path value) : Resolves store (.Leaf path value) (.Leaf path value)
  | extension (path) {child shown} (h : Resolves store child shown) :
      Resolves store (.Extension path child) (.Extension path shown)
  | branch {children shown} (hpresent : ∀ i, (shown i).isSome = (children i).isSome)
      (h : ∀ i child trie, children i = some child → shown i = some trie →
        Resolves store child trie) :
      Resolves store (.Branch children) (.Branch shown)
  | found {digest node trie} (hnode : store (.Digest digest) = some node)
      (h : Resolves store node trie) : Resolves store (.Digest digest) trie
  | kept {digest} (hnode : store (.Digest digest) = none) :
      Resolves store (.Digest digest) (.Digest digest)

/-- The second node is the first one with some digests replaced by nodes that have these digests
for references. -/
inductive Expands (keccak : Bytes → B256) : MptNode → MptNode → Prop
  | refl (node) : Expands keccak node node
  | digest {digest node} (h : node.reference keccak = .Digest digest) :
      Expands keccak (.Digest digest) node
  | extension (path) {child shown} (h : Expands keccak child shown) :
      Expands keccak (.Extension path child) (.Extension path shown)
  | branch {children shown} (hpresent : ∀ i, (shown i).isSome = (children i).isSome)
      (h : ∀ i child trie, children i = some child → shown i = some trie →
        Expands keccak child trie) :
      Expands keccak (.Branch children) (.Branch shown)

theorem present_cases {child shown : Option MptNode} (h : shown.isSome = child.isSome) :
    (child = none ∧ shown = none) ∨ ∃ node trie, child = some node ∧ shown = some trie := by
  cases child with
  | none => exact .inl ⟨rfl, by simpa using h⟩
  | some node => exact .inr ⟨node, shown.get h, rfl, (Option.some_get h).symm⟩

section Resolves

variable {store : NodeStore}

theorem resolves_of_resolveNodes {fuel : Nat} {node trie : MptNode}
    (h : resolveNodes store fuel node = some trie) : Resolves store node trie := by
  induction fuel generalizing node trie with
  | zero => cases h
  | succ fuel ih =>
      cases node with
      | Null =>
          cases h
          exact .null
      | Leaf path value =>
          cases h
          exact .leaf path value
      | Extension path child =>
          rw [resolveNodes, Option.map_eq_some_iff] at h
          obtain ⟨shown, hchild, rfl⟩ := h
          exact .extension path (ih hchild)
      | Digest digest =>
          rw [resolveNodes] at h
          cases hnode : store (.Digest digest) with
          | none =>
              rw [hnode] at h
              cases h
              exact .kept hnode
          | some node =>
              rw [hnode] at h
              exact .found hnode (ih h)
      | Branch children =>
          rw [resolveNodes, Option.map_eq_some_iff] at h
          obtain ⟨shown, hchildren, rfl⟩ := h
          have hresults := resolvedChildren_eq_some.mp hchildren
          refine .branch (fun i => ?_) fun i child trie hchild htrie => ?_
          · have hi := congrArg Option.isSome (hresults i)
            rw [Option.isSome_map, Option.isSome_map] at hi
            exact hi.symm
          · have hi := hresults i
            rw [hchild, htrie, Option.map_some, Option.map_some] at hi
            exact ih (Option.some.inj hi)

theorem Resolves.exists_fuel {node trie : MptNode} (h : Resolves store node trie) :
    ∃ fuel, resolveNodes store fuel node = some trie := by
  induction h with
  | null => exact ⟨1, rfl⟩
  | leaf path value => exact ⟨1, rfl⟩
  | extension path _ ih =>
      obtain ⟨fuel, hchild⟩ := ih
      exact ⟨fuel + 1, by rw [resolveNodes, hchild, Option.map_some]⟩
  | found hnode _ ih =>
      obtain ⟨fuel, htrie⟩ := ih
      exact ⟨fuel + 1, by simp only [resolveNodes, hnode, htrie]⟩
  | kept hnode => exact ⟨1, by simp only [resolveNodes, hnode]⟩
  | @branch children shown hpresent _ ih =>
      -- The children need different amounts of fuel; the largest is enough for all.
      have hchild : ∀ i, ∃ fuel, (children i).map (resolveNodes store fuel) =
          (shown i).map some := by
        intro i
        obtain ⟨hchild, hshown⟩ | ⟨child, trie, hchild, htrie⟩ := present_cases (hpresent i)
        · exact ⟨0, by rw [hchild, hshown, Option.map_none, Option.map_none]⟩
        · obtain ⟨fuel, hfuel⟩ := ih i child trie hchild htrie
          exact ⟨fuel, by rw [hchild, htrie, Option.map_some, Option.map_some, hfuel]⟩
      choose fuel hfuel using hchild
      refine ⟨Finset.univ.sup fuel + 1, ?_⟩
      rw [resolveNodes, Option.map_eq_some_iff]
      refine ⟨shown, resolvedChildren_eq_some.mpr fun i => ?_, rfl⟩
      rw [← hfuel i]
      cases hchild : children i with
      | none => rfl
      | some child =>
          have hi := hfuel i
          rw [hchild, Option.map_some] at hi
          obtain ⟨trie, -, htrie⟩ := Option.map_eq_some_iff.mp hi.symm
          have hle : fuel i ≤ Finset.univ.sup fuel := Finset.le_sup (Finset.mem_univ i)
          rw [Option.map_some, Option.map_some, ← htrie, resolveNodes_mono hle htrie.symm]

/-- What is still hidden is not in the store. -/
theorem Resolves.hidden {node trie : MptNode} (h : Resolves store node trie) {digest : B256}
    (hshows : trie.Shows digest) : store (.Digest digest) = none := by
  induction h with
  | null => cases hshows
  | leaf path value => cases hshows
  | extension path _ ih =>
      cases hshows with
      | extension hshows => exact ih hshows
  | branch hpresent _ ih =>
      cases hshows with
      | branch htrie hshows =>
          obtain ⟨-, hnone⟩ | ⟨child, trie, hchild, hsome⟩ := present_cases (hpresent _)
          · rw [hnone] at htrie
            cases htrie
          · rw [hsome] at htrie
            cases htrie
            exact ih _ child _ hchild hsome hshows
  | found _ _ ih => exact ih hshows
  | kept hnode =>
      cases hshows
      exact hnode

end Resolves

section Expands

variable {keccak : Bytes → B256}

theorem map_reference_eq {children shown : Nibble → Option MptNode}
    (hpresent : ∀ i, (shown i).isSome = (children i).isSome)
    (h : ∀ i child trie, children i = some child → shown i = some trie →
      trie.reference keccak = child.reference keccak) (i : Nibble) :
    (shown i).map (MptNode.reference keccak) = (children i).map (MptNode.reference keccak) := by
  obtain ⟨hchild, hshown⟩ | ⟨child, trie, hchild, htrie⟩ := present_cases (hpresent i)
  · rw [hchild, hshown]
  · rw [hchild, htrie, Option.map_some, Option.map_some, h i child trie hchild htrie]

/-- References do not tell a node from its digest. -/
theorem Expands.reference {node trie : MptNode} (h : Expands keccak node trie) :
    trie.reference keccak = node.reference keccak := by
  induction h with
  | refl node => rfl
  | digest h => exact h
  | extension path _ ih =>
      rw [MptNode.reference_extension, MptNode.reference_extension, MptNode.encode, MptNode.encode,
        ih]
  | branch hpresent _ ih =>
      rw [MptNode.reference_branch, MptNode.reference_branch, MptNode.encode, MptNode.encode]
      exact congrArg _ (congrArg _ (funext (map_reference_eq hpresent ih)))

theorem MptNode.hash_of_reference {node : MptNode} {digest : B256}
    (h : node.reference keccak = .Digest digest) : node.hash keccak = digest := by
  cases node with
  | Null => cases h
  | Branch | Leaf | Extension | Digest => simp only [MptNode.hash, h]

theorem Expands.hash {node trie : MptNode} (h : Expands keccak node trie) :
    trie.hash keccak = node.hash keccak := by
  have hreference := h.reference
  cases h with
  | refl => rfl
  | digest h => exact MptNode.hash_of_reference h
  | extension | branch => simp only [MptNode.hash, hreference]

/-- A lookup that ends before it comes to a digest ends in the same way. -/
theorem Expands.getInternal {node trie : MptNode} (h : Expands keccak node trie)
    {keyNibs : List Nibble} {value : Option Bytes} (hget : node.getInternal keyNibs = .ok value) :
    trie.getInternal keyNibs = .ok value := by
  induction h generalizing keyNibs with
  | refl node => exact hget
  | digest h => cases hget
  | extension path _ ih =>
      rw [MptNode.getInternal] at hget ⊢
      cases hnibs : prefixNibs path with
      | error e =>
          rw [hnibs] at hget
          cases hget
      | ok selfNibs =>
          simp only [hnibs] at hget ⊢
          cases htail : keyNibs.dropPrefix? selfNibs with
          | none =>
              rw [htail] at hget
              exact hget
          | some tail =>
              rw [htail] at hget
              exact ih hget
  | @branch children shown hpresent _ ih =>
      cases keyNibs with
      | nil => exact hget
      | cons i tail =>
          rw [MptNode.getInternal] at hget ⊢
          obtain ⟨hchild, hshown⟩ | ⟨child, trie, hchild, htrie⟩ := present_cases (hpresent i)
          · rw [hchild] at hget
            rw [hshown]
            exact hget
          · rw [hchild] at hget
            rw [htrie]
            exact ih i child trie hchild htrie hget

/-- Nodes that are stored under their references keep those. -/
theorem Resolves.expands {store : NodeStore} (hstore : store.Keyed keccak) {node trie : MptNode}
    (h : Resolves store node trie) : Expands keccak node trie := by
  induction h with
  | null => exact .refl _
  | leaf path value => exact .refl _
  | extension path _ ih => exact .extension path ih
  | branch hpresent _ ih => exact .branch hpresent ih
  | found hnode _ ih => exact .digest (ih.reference.trans (hstore _ _ hnode))
  | kept hnode => exact .refl _

/-- The replaced child was a digest. -/
theorem eq_digest_of_isDigestOf {digest : B256} {child : Option MptNode}
    (h : isDigestOf digest child = true) : child = some (.Digest digest) := by
  cases child with
  | none => cases h
  | some node =>
      cases node with
      | Digest other =>
          rw [isDigestOf, beq_iff_eq] at h
          rw [h]
      | Null | Branch | Leaf | Extension => cases h

theorem attach_expands {index : Nat} {node replacement trie : MptNode}
    (h : attach keccak index node replacement = .ok trie) : Expands keccak node trie := by
  rw [attach] at h
  cases hreference : replacement.reference keccak with
  | Bytes bytes =>
      rw [hreference] at h
      cases h
  | Digest childRef =>
      simp only [hreference] at h
      cases node with
      | Null | Leaf | Digest => cases h
      | Extension path child =>
          simp only at h
          split_ifs at h with hchild
          cases h
          rw [Option.some.inj (eq_digest_of_isDigestOf hchild)]
          exact .extension path (.digest hreference)
      | Branch children =>
          simp only at h
          split at h
          · next i hfind =>
              cases h
              rw [findDigest] at hfind
              have hdigest := List.find?_some hfind
              have hi := eq_digest_of_isDigestOf hdigest
              refine .branch (fun j => ?_) fun j child trie hchild htrie => ?_
              · by_cases hj : j = i
                · rw [hj, Function.update_self, hi]
                  rfl
                · rw [Function.update_of_ne hj]
              · by_cases hj : j = i
                · rw [hj, Function.update_self] at htrie
                  rw [hj, hi] at hchild
                  cases htrie
                  cases hchild
                  exact .digest hreference
                · rw [Function.update_of_ne hj, hchild] at htrie
                  cases htrie
                  exact .refl child
          · cases h

/-- The loop ends with the first node of the proof. -/
theorem attachAll_expands {front : List (MptNode × Nat)} {first : MptNode} {index : Nat}
    {next result : Option MptNode}
    (h : attachAll keccak (front ++ [(first, index)]) next = .ok result) :
    ∃ trie, result = some trie ∧ Expands keccak first trie := by
  induction front generalizing next with
  | nil =>
      cases next with
      | none =>
          cases h
          exact ⟨first, rfl, .refl first⟩
      | some replacement =>
          rw [List.nil_append, attachAll] at h
          cases hattach : attach keccak index first replacement with
          | error e =>
              rw [hattach] at h
              cases h
          | ok resolved =>
              rw [hattach] at h
              cases h
              exact ⟨resolved, rfl, attach_expands hattach⟩
  | cons entry front ih =>
      obtain ⟨node, i⟩ := entry
      cases next with
      | none => exact ih h
      | some replacement =>
          rw [List.cons_append, attachAll] at h
          cases hattach : attach keccak i node replacement with
          | error e =>
              rw [hattach] at h
              cases h
          | ok resolved =>
              rw [hattach] at h
              exact ih h

theorem mptFromProof_expands {first trie : MptNode} {rest : List MptNode}
    (h : mptFromProof keccak (first :: rest) = .ok trie) : Expands keccak first trie := by
  rw [mptFromProof, List.zipIdx_cons, List.reverse_cons] at h
  split at h
  · cases h
  · next next hloop =>
      obtain ⟨root, rfl, hroot⟩ := attachAll_expands hloop
      cases h
      exact hroot

end Expands

/-- Resolving a node against a store of nodes under their own references keeps its reference, its
hash and everything that can be looked up in it, and leaves no digest that is in the store.
Building a trie from a proof keeps the hash of the first node and what can be looked up there. -/
theorem resolving_only_adds (keccak : Bytes → B256) {store : NodeStore}
    (hstore : store.Keyed keccak) :
    (∀ root fuel trie, resolveNodes store fuel root = some trie →
      trie.reference keccak = root.reference keccak ∧ trie.hash keccak = root.hash keccak ∧
      (∀ key value, root.get key = .ok value → trie.get key = .ok value) ∧
      ∀ digest, trie.Shows digest → store (.Digest digest) = none) ∧
    ∀ first rest trie, mptFromProof keccak (first :: rest) = .ok trie →
      trie.hash keccak = first.hash keccak ∧
      ∀ key value, first.get key = .ok value → trie.get key = .ok value := by
  constructor
  · intro root fuel trie hrun
    have hresolves := resolves_of_resolveNodes hrun
    have hexpands := hresolves.expands hstore
    exact ⟨hexpands.reference, hexpands.hash, fun key value => hexpands.getInternal,
      fun digest => hresolves.hidden⟩
  · intro first rest trie hproof
    have hexpands := mptFromProof_expands hproof
    exact ⟨hexpands.hash, fun key value => hexpands.getInternal⟩

section Sample

/-- A leaf that is referred to by its hash, and an extension that refers to it. -/
def hashedLeaf : MptNode := .Leaf (toEncodedPath [2, 3] true) (List.replicate 32 7)

def leafDigest : B256 :=
  ⟨[0xbd, 0x12, 0x31, 0xde, 0xae, 0x8d, 0x32, 0xc5, 0xd5, 0x48, 0xf0, 0xb4, 0xb5, 0x23, 0x4a, 0x73,
    0xf0, 0xad, 0x8d, 0xc1, 0xe6, 0x63, 0xcc, 0x03, 0x76, 0xc8, 0x57, 0xea, 0x73, 0x73, 0xe4, 0xb6],
    rfl⟩

def hashedExtension : MptNode := .Extension (toEncodedPath [1] false) (.Digest leafDigest)

def extensionDigest : B256 :=
  ⟨[0xc1, 0xd3, 0xdf, 0x6f, 0x52, 0xdd, 0x8b, 0xb9, 0x52, 0xab, 0xfe, 0x26, 0xbe, 0x96, 0x2d, 0x32,
    0x71, 0xdd, 0xf3, 0x09, 0xea, 0x96, 0x01, 0xfb, 0x43, 0xd5, 0x39, 0x15, 0x99, 0x0d, 0xaf, 0x5e],
    rfl⟩

def extensionDigests : List (Bytes × B256) :=
  [(encodeLeaf (toEncodedPath [2, 3] true) (List.replicate 32 7), leafDigest),
    (encodeExtension (toEncodedPath [1] false) (.Digest leafDigest), extensionDigest)]

def leafStore : NodeStore := NodeStore.insert .empty (.Digest leafDigest) hashedLeaf

theorem reference_hashedLeaf :
    hashedLeaf.reference (tableHash extensionDigests) = .Digest leafDigest := by
  decide

theorem leafStore_keyed : leafStore.Keyed (tableHash extensionDigests) := by
  intro reference node h
  rw [leafStore, NodeStore.insert] at h
  by_cases hr : reference = .Digest leafDigest
  · rw [hr, Function.update_self] at h
    cases h
    rw [hr, reference_hashedLeaf]
  · rw [Function.update_of_ne hr] at h
    cases h

theorem resolving_only_adds_leaf :
    resolveNodes leafStore 3 hashedExtension =
        some (.Extension (toEncodedPath [1] false) hashedLeaf) ∧
      mptFromProof (tableHash extensionDigests) [hashedExtension, hashedLeaf] =
        .ok (.Extension (toEncodedPath [1] false) hashedLeaf) ∧
      (MptNode.Extension (toEncodedPath [1] false) hashedLeaf).hash (tableHash extensionDigests) =
        extensionDigest := by
  have hrun : resolveNodes leafStore 3 hashedExtension =
      some (.Extension (toEncodedPath [1] false) hashedLeaf) := by
    simp [resolveNodes, hashedExtension, leafStore, NodeStore.insert, hashedLeaf]
  have hproof : mptFromProof (tableHash extensionDigests) [hashedExtension, hashedLeaf] =
      .ok (.Extension (toEncodedPath [1] false) hashedLeaf) := by
    simp [mptFromProof, attachAll, attach, reference_hashedLeaf, hashedExtension, isDigestOf]
  have hresult := (resolving_only_adds (tableHash extensionDigests) leafStore_keyed).2 _ _ _ hproof
  refine ⟨hrun, hproof, hresult.1.trans ?_⟩
  decide

end Sample

end FluentStf.Mpt
