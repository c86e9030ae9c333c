import FluentStf.Mpt.Keyed

/-! Reads from an untrusted tree whose root hash is that of an honest trie. The
encoding of a two-item node does not tell a leaf from an extension except by the
kind bit of its path, and lookups do not look at that bit. Reads are bound to
the root hash exactly for the trees whose nodes have the kind their paths say. -/
namespace FluentStf.Mpt

open Radix MptNode

namespace MptNode

/-- The kind bit of a path field. -/
def leafFlag (path : Bytes) : Bool := path.head?.any hasLeafFlag

/-- A lookup that ends at this node finds the given value or fails. -/
def Yields (value : Bytes) : MptNode → Prop
  | .Digest _ => True
  | .Leaf path own => ∀ nibs, prefixNibs path = .ok nibs → nibs = [] ∧ own = value
  | .Extension path child =>
      ∀ nibs, prefixNibs path = .ok nibs → nibs = [] ∧ child.Yields value
  | _ => False

section

variable (keccak : Bytes → B256)

mutual

/-- Every leaf has the kind bit of leaves in its path. An extension does not have
it, unless its child can be read only as the value that the leaf would hold. -/
def Faithful : MptNode → Prop
  | .Null => True
  | .Branch children => ∀ i, FaithfulChild (children i)
  | .Leaf path _ => leafFlag path = true
  | .Extension path child =>
      (leafFlag path = false ∧ child.Faithful) ∨
        (leafFlag path = true ∧
          ∃ digest, child.reference keccak = .Digest digest ∧ child.Yields digest.bytes)
  | .Digest _ => True

def FaithfulChild : Option MptNode → Prop
  | none => True
  | some child => child.Faithful

end

theorem faithfulChild_eq (child : Option MptNode) :
    FaithfulChild keccak child ↔ (orNull child).Faithful keccak := by
  cases child <;> rfl

end

theorem leafFlag_toEncodedPath (nibs : List Nibble) (isLeaf : Bool) :
    leafFlag (toEncodedPath nibs isLeaf) = isLeaf := by
  obtain ⟨first, tail, hpath, hflag⟩ := toEncodedPath_flag nibs isLeaf
  simp [leafFlag, hpath, hflag]

theorem getChild_eq (child : Option MptNode) (k : List Nibble) :
    getChild child k = (orNull child).getInternal k := by
  cases child <;> rfl

/-- What a lookup finds at the node itself. -/
theorem yields_iff (node : MptNode) (value : Bytes) :
    (∀ found, node.getInternal [] = .ok found → found = some value) ↔ node.Yields value := by
  induction node with
  | Null => exact ⟨fun h => (Option.some_ne_none _ (h none rfl).symm).elim, False.elim⟩
  | Branch children _ => exact ⟨fun h => (Option.some_ne_none _ (h none rfl).symm).elim, False.elim⟩
  | Digest d => exact ⟨fun _ => trivial, fun _ found h => nomatch h⟩
  | Leaf path own =>
      simp only [getInternal, Yields]
      cases prefixNibs path with
      | error e => simp
      | ok nibs => by_cases hn : nibs = [] <;> simp [hn]
  | Extension path child ih =>
      simp only [getInternal, Yields]
      cases prefixNibs path with
      | error e => simp
      | ok nibs =>
          cases nibs with
          | nil => simpa [List.dropPrefix?] using ih
          | cons a nibs => simp [List.dropPrefix?]

end MptNode

/-- Whatever keys of one length yield in the tree, they yield in the trie. -/
def ReadsAgree (n : Nat) (w : MptNode) (t : NibbleTrie) : Prop :=
  ∀ k : List Nibble, k.length = n → ∀ found, w.getInternal k = .ok found → t.lookup k = .ok found

section

variable {keccak : Bytes → B256} {n : Nat}

theorem readsAgree_branch {children : Nibble → Option MptNode} {f : Nibble → NibbleTrie} :
    ReadsAgree (n + 1) (.Branch children) (.branch f) ↔
      ∀ i, ReadsAgree n (orNull (children i)) (f i) := by
  constructor
  · intro h i k hk found hfound
    refine h (i :: k) (by simp [hk]) found ?_
    rwa [getInternal, getChild_eq]
  · intro h k hk found hfound
    cases k with
    | nil => simp at hk
    | cons i k =>
        rw [getInternal, getChild_eq] at hfound
        exact h i k (by simpa using hk) found hfound

theorem readsAgree_extension {child : MptNode} {p : List Nibble} {c : NibbleTrie} (isLeaf : Bool) :
    ReadsAgree (p.length + n) (.Extension (toEncodedPath p isLeaf) child) (.ext p c) ↔
      ReadsAgree n child c := by
  constructor
  · intro h k hk found hfound
    have := h (p ++ k) (by simp [hk]) found
    simp only [getInternal, prefixNibs_toEncodedPath, Trie.dropPrefix?_append,
      Trie.lookup] at this
    exact this hfound
  · intro h k hk found hfound
    simp only [getInternal, prefixNibs_toEncodedPath] at hfound
    by_cases hp : p <+: k
    · obtain ⟨r, rfl⟩ := hp
      rw [Trie.dropPrefix?_append] at hfound
      rw [Trie.lookup, Trie.dropPrefix?_append]
      exact h r (by simpa using hk) found hfound
    · rw [Trie.dropPrefix?_eq_none hp] at hfound
      rw [Trie.lookup, Trie.dropPrefix?_eq_none hp]
      cases hfound
      rfl

/-- An extension in the place of a leaf answers for the key of that leaf with
whatever its child holds. -/
theorem readsAgree_extensionForLeaf {child : MptNode} {p : List Nibble} {v : Bytes} :
    ReadsAgree p.length (.Extension (toEncodedPath p true) child) (.leaf p v) ↔
      child.Yields v := by
  rw [← yields_iff]
  constructor
  · intro h found hfound
    have hfound' : (MptNode.Extension (toEncodedPath p true) child).getInternal p = .ok found := by
      have hdrop : p.dropPrefix? p = some [] := by
        simpa using Trie.dropPrefix?_append p []
      simpa only [getInternal, prefixNibs_toEncodedPath, hdrop] using hfound
    have := h p rfl found hfound'
    rw [Trie.lookup, if_pos rfl] at this
    exact (Except.ok.inj this).symm
  · intro h k hk found hfound
    simp only [getInternal, prefixNibs_toEncodedPath] at hfound
    by_cases hp : p <+: k
    · obtain rfl := hp.eq_of_length hk.symm
      have hdrop : p.dropPrefix? p = some [] := by
        simpa using Trie.dropPrefix?_append p []
      rw [hdrop] at hfound
      rw [Trie.lookup, if_pos rfl, h found hfound]
    · rw [Trie.dropPrefix?_eq_none hp] at hfound
      rw [Trie.lookup, if_neg]
      · cases hfound
        rfl
      · rintro rfl
        exact hp (List.prefix_refl p)

/-- A leaf in the place of an extension hides every key below. -/
theorem not_readsAgree_leafForExtension {p : List Nibble} {c : NibbleTrie} {v : Bytes}
    (ht : Keyed n (.ext p c)) :
    ¬ReadsAgree n (.Leaf (toEncodedPath p false) v) (.ext p c) := by
  intro h
  obtain ⟨m, rfl⟩ := ht.ext_length
  have hc := ht.ext_child
  have hne : c ≠ .null := by
    rintro rfl
    exact ht.canonical.2.1
  obtain ⟨q, w, hq⟩ := hc.exists_value hne
  have hq0 : q ≠ [] := by
    rintro rfl
    -- Only a leaf ends right here, and extensions do not lead to leaves.
    rw [Trie.entry_nil_inl hc.canonical hq] at ht
    exact ht.canonical.2.1
  have hread := h (p ++ q) (by simp [hc.length q _ hq]) none (by
    simp [getInternal, hq0])
  rw [ht.lookup, Trie.entry_ext_append, hq] at hread
  cases hread

theorem readsAgree_digest (d : B256) (t : NibbleTrie) :
    ReadsAgree n (.Digest d) t ↔ (MptNode.Digest d).Faithful keccak :=
  iff_of_true (fun _ _ _ hfound => nomatch hfound) trivial

/-- A tree with the encoding of a trie is hidden altogether or has its shape. -/
theorem digest_or_mimics {w : MptNode} {t : NibbleTrie} (ht : Keyed n t)
    (h : w.isDigest = false → w.encode keccak = (toNode t).encode keccak) :
    (∃ d, w = .Digest d) ∨ Mimics keccak w t := by
  by_cases hd : w.isDigest = false
  · exact .inr (mimics_of_encode ht.fits ht.opened.ne_stub hd (h hd))
  · cases w with
    | Digest d => exact .inl ⟨d, rfl⟩
    | _ => exact (hd rfl).elim

/-- Reads agree with those of an honest trie of the same encoding exactly when
the tree is faithful. -/
theorem readsAgree_iff_faithful {w : MptNode} {t : NibbleTrie} (ht : Keyed n t)
    (hinj : Set.InjOn keccak
      {encoded | encoded ∈ w.encodings keccak ++ (toNode t).encodings keccak})
    (h : w.isDigest = false → w.encode keccak = (toNode t).encode keccak) :
    ReadsAgree n w t ↔ w.Faithful keccak := by
  induction t generalizing w n with
  | stub d => exact (ht.opened.ne_stub d rfl).elim
  | null =>
      rcases digest_or_mimics ht h with ⟨d, rfl⟩ | hm
      · exact readsAgree_digest d _
      · cases hm
        refine iff_of_true (fun k _ found hfound => ?_) trivial
        cases hfound
        rfl
  | leaf p v =>
      have hn : p.length = n := ht.length p (.inl v) (by simp [Trie.entry])
      have hv : v ≠ [] := ht.value p v (by simp [Trie.entry])
      subst hn
      rcases digest_or_mimics ht h with ⟨d, rfl⟩ | hm
      · exact readsAgree_digest d _
      · cases hm with
        | leaf =>
            refine iff_of_true (fun k _ found hfound => ?_) (leafFlag_toEncodedPath p true)
            simp only [getInternal, prefixNibs_toEncodedPath] at hfound
            rw [Trie.lookup]
            split_ifs at hfound ⊢ <;> cases hfound <;> rfl
        | extensionForLeaf href =>
            obtain ⟨_, hvlen⟩ : p.length < 2 ^ 63 ∧ v.length < 2 ^ 63 := ht.fits
            rcases string_eq_reference (by omega) href with ⟨hnil, _⟩ | ⟨d, hd, hvd⟩
            · exact (hv hnil).elim
            · rw [readsAgree_extensionForLeaf]
              simp [MptNode.Faithful, leafFlag_toEncodedPath, hd, hvd]
  | ext p c ih =>
      rcases digest_or_mimics ht h with ⟨d, rfl⟩ | hm
      · exact readsAgree_digest d _
      · cases hm with
        | leafForExtension hv href =>
            refine iff_of_false (not_readsAgree_leafForExtension ht) ?_
            simp [MptNode.Faithful, leafFlag_toEncodedPath]
        | @extension child _ _ href =>
            obtain ⟨m, rfl⟩ := ht.ext_length
            have hinj' := hinj.mono (subset_of_children
              (encodings_extension keccak _ child) (encodings_toNode_ext p c))
            have hchild := ih ht.ext_child hinj' fun hd => encode_eq_of_reference hd
              (isDigest_toNode ht.ext_child.opened.ne_stub) (injOn_hashed hinj') href
            rw [readsAgree_extension, hchild]
            simp [MptNode.Faithful, leafFlag_toEncodedPath]
  | branch f ih =>
      rcases digest_or_mimics ht h with ⟨d, rfl⟩ | hm
      · exact readsAgree_digest d _
      · obtain ⟨m, rfl⟩ := ht.branch_length
        cases hm with
        | @branch children _ href =>
            rw [readsAgree_branch, MptNode.Faithful]
            refine forall_congr' fun i => ?_
            rw [faithfulChild_eq]
            by_cases hi : f i = .null
            · have hnull := href i
              rw [hi] at hnull
              rw [eq_null_of_reference hnull, hi]
              refine iff_of_true (fun k _ found hfound => ?_) trivial
              cases hfound
              rfl
            · have hc : ∃ child, children i = some child := by
                cases hci : children i with
                | some child => exact ⟨child, rfl⟩
                | none =>
                    have hnull := href i
                    rw [hci] at hnull
                    exact (hi (toNode_eq_null (eq_null_of_reference hnull.symm))).elim
              obtain ⟨child, hchild⟩ := hc
              have hinj' := hinj.mono (subset_of_children
                (encodings_branch keccak hchild) (encodings_toNode_branch hi))
              have hreference := href i
              rw [hchild] at hreference ⊢
              exact ih i (ht.branch_child i) hinj' fun hd => encode_eq_of_reference hd
                (isDigest_toNode (ht.branch_child i).opened.ne_stub) (injOn_hashed hinj') hreference

end

/-- Reads from a tree with the root hash of an honest trie over 32-byte keys
agree with the reads from that trie exactly when the tree is faithful. -/
theorem witness_reads_bound_iff_faithful (keccak : Bytes → B256)
    (hempty : keccak [EMPTY_STRING_CODE] = EMPTY_ROOT) (calls : List Call)
    (hcalls : ∀ call ∈ calls, call.Allowed ∧ call.Fits ∧ call.key.length = 32) (W : MptNode)
    (hinj : Set.InjOn keccak
      {encoded | encoded ∈ W.encodings keccak ++ (trieOf calls).encodings keccak})
    (hroot : W.hash keccak = (trieOf calls).hash keccak) :
    (∀ key : Bytes, key.length = 32 →
      ∀ found, W.get key = .ok found → (trieOf calls).get key = .ok found) ↔
      W.Faithful keccak := by
  obtain ⟨t, hnode, ht⟩ := trieOf_keyed hcalls
  rw [hnode] at hinj hroot ⊢
  rw [← readsAgree_iff_faithful ht hinj fun hd => encode_eq_of_hash hempty hd
    (isDigest_toNode ht.opened.ne_stub) hinj hroot]
  constructor
  · intro h k hk found hfound
    obtain ⟨key, hlength, rfl⟩ := exists_key hk
    have hread := h key hlength found hfound
    rw [MptNode.get, getInternal_toNode, ht.lookup] at hread
    rw [ht.lookup]
    exact congrArg _ (Except.ok.inj hread)
  · intro h key hlength found hfound
    have hread := h (toNibs key) (by rw [toNibs_length, hlength]) found hfound
    rw [MptNode.get, getInternal_toNode, hread]
    rfl

/-- The root extension with its branch left out. -/
def hiddenBranch : MptNode :=
  .Extension [0x10]
    (.Digest (.ofNat 0xf290f1dd05ef44400aeb5d92aa26dd9af9d55edf51dec10a9779a66093c42acf))

theorem witness_reads_bound_hidden :
    hiddenBranch.hash (tableHash twoAccountsDigests) =
        (trieOf twoAccounts).hash (tableHash twoAccountsDigests) ∧
      ∀ key : Bytes, key.length = 32 →
        ∀ found, hiddenBranch.get key = .ok found → (trieOf twoAccounts).get key = .ok found := by
  have hroot : hiddenBranch.hash (tableHash twoAccountsDigests) =
      (trieOf twoAccounts).hash (tableHash twoAccountsDigests) := by decide +kernel
  refine ⟨hroot, (witness_reads_bound_iff_faithful _ ?_ twoAccounts ?_ hiddenBranch ?_
    hroot).mpr ?_⟩
  · decide
  · simp [twoAccounts, Call.Allowed, Call.Fits, Call.key]
  · exact injOn_tableHash (by decide +kernel) (by decide +kernel)
  · exact .inl ⟨by decide, trivial⟩

/-- The root extension written as a leaf, with the digest of the branch as value. -/
def disguisedRoot : MptNode :=
  .Leaf [0x10]
    (B256.ofNat 0xf290f1dd05ef44400aeb5d92aa26dd9af9d55edf51dec10a9779a66093c42acf).bytes

theorem disguised_root_hides_account :
    disguisedRoot.hash (tableHash twoAccountsDigests) =
        (trieOf twoAccounts).hash (tableHash twoAccountsDigests) ∧
      Set.InjOn (tableHash twoAccountsDigests)
        {encoded | encoded ∈ disguisedRoot.encodings (tableHash twoAccountsDigests) ++
          (trieOf twoAccounts).encodings (tableHash twoAccountsDigests)} ∧
      disguisedRoot.get (List.replicate 32 0) = .ok none ∧
      (trieOf twoAccounts).get (List.replicate 32 0) = .ok (some [1]) :=
  ⟨by decide +kernel, injOn_tableHash (by decide +kernel) (by decide +kernel),
    by decide +kernel, by decide +kernel⟩
end FluentStf.Mpt
