import FluentStf.Mpt.SparseState

/-! Updates with a witness in place of the state: an insertion, a deletion and the
update of a whole block, each compared with the same on the tries that the witness
was cut from. -/
namespace FluentStf.Mpt

open Radix

/-- The values of a trie that fits are bounded. -/
theorem value_fits {t : NibbleTrie} (h : Fits t) {q : List Nibble} {v : Bytes}
    (hq : t.entry q = some (.inl v)) : v.length < 2 ^ 63 := by
  induction t generalizing q with
  | null => cases hq
  | stub d => cases (Trie.entry_stub_eq_some.mp hq).2
  | leaf p w =>
      cases (Trie.entry_leaf_eq_some.mp hq).2
      exact h.2
  | ext p c ih =>
      obtain ⟨r, rfl, hr⟩ := Trie.entry_ext_eq_some.mp hq
      exact ih h.2 hr
  | branch f ih =>
      cases q with
      | nil => cases hq
      | cons i q => exact ih i (h i) hq

/-- Deletions keep a trie within its sizes. -/
theorem fits_delete {t t' : NibbleTrie} {k : List Nibble} (ht : Keyed 64 t)
    (h : t.delete k = some t') : Fits t' := by
  obtain ⟨hcan, hentry⟩ := Trie.delete_spec ht.canonical h
  apply fits_of_entry hcan
  intro q x hq
  rw [hentry] at hq
  by_cases hqk : q = k
  · simp [hqk] at hq
  · rw [Function.update_of_ne hqk] at hq
    refine ⟨by rw [ht.length q x hq]; omega, ?_⟩
    rintro v rfl
    exact value_fits ht.fits hq

section

variable {keccak : Bytes → B256}

/-- A deletion on a partial view gives the root hash of the deletion on the full
trie exactly when it does not collapse onto a hidden node. -/
theorem delete_hash_iff (hempty : keccak [EMPTY_STRING_CODE] = EMPTY_ROOT) {w w' t t' : NibbleTrie}
    {k : List Nibble} (ht : Keyed 64 t) (hw' : w.delete k = some w') (ht' : t.delete k = some t')
    (hinj : Set.InjOn keccak
      {encoded | encoded ∈ (toNode w').encodings keccak ++ (toNode t').encodings keccak}) :
    (toNode w').hash keccak = (toNode t').hash keccak ↔ Trie.View (Hides keccak) w' t' := by
  have hopen : Open t' := ht.opened.update (x := none) (Trie.delete_spec ht.canonical ht').2
  constructor
  · intro hhash
    have hw : (toNode w').isDigest = false := isDigest_toNode (Trie.delete_ne_stub hw')
    have ht0 : (toNode t').isDigest = false := isDigest_toNode hopen.ne_stub
    apply view_of_reference hopen (fits_delete ht ht') (injOn_hashed hinj)
    rw [MptNode.reference_eq keccak hw, MptNode.reference_eq keccak ht0,
      MptNode.encode_eq_of_hash hempty hw ht0 hinj hhash]
  · exact fun hview => hash_eq_of_reference (view_reference hview)

end

/-- A state without hidden parts: tries over hashed keys, and for every account
the entry of the state trie holds the root of its storage trie. -/
structure Consistent (keccak : Bytes → B256) (F : EthereumState) : Prop where
  state : ∃ calls, (∀ call ∈ calls, call.Allowed ∧ call.Fits ∧ call.key.length = 32) ∧
    F.stateTrie = trieOf calls
  storage : ∀ address, ∃ calls,
    (∀ call ∈ calls, call.Allowed ∧ call.Fits ∧ call.key.length = 32) ∧
      F.storageTrie address = trieOf calls
  account : ∀ address : B256,
    (F.stateTrie.get address.bytes = .ok none ∧ F.storageTrie address = .Null) ∨
      ∃ account : TrieAccount, F.stateTrie.get address.bytes = .ok (some account.encode) ∧
        account.storageRoot = (F.storageTrie address).hash keccak
  /-- No hash of a storage trie is one of the two markers for empty storage. -/
  root : ∀ address, F.storageTrie address ≠ .Null →
    (F.storageTrie address).hash keccak ≠ EMPTY_ROOT ∧
      (F.storageTrie address).hash keccak ≠ B256.zero

/-- A witness for a state: every trie is a partial view, and storage tries may be
missing. -/
structure StateView (keccak : Bytes → B256) (W F : EthereumState) : Prop where
  state : PartialView keccak W.stateTrie F.stateTrie
  storage : ∀ address, W.storageTrie address = .Null ∨
    PartialView keccak (W.storageTrie address) (F.storageTrie address)

theorem StateView.tracks {keccak : Bytes → B256} {W F : EthereumState}
    (h : StateView keccak W F) (hF : Consistent keccak F) (pending : List B256) :
    ∃ w t, Tracks keccak pending W F w t := by
  obtain ⟨calls, hcalls, hstate⟩ := hF.state
  obtain ⟨t, ht, hkeyed⟩ := trieOf_keyed hcalls
  rw [ht] at hstate
  have hview := h.state
  rw [hstate] at hview
  obtain ⟨w, hw, hview⟩ := partialView_toNode hview
  refine ⟨w, t, hw, hstate, hview, hkeyed.canonical, hkeyed.opened, fun address _ => ?_⟩
  obtain ⟨slots, hslots, hstorage⟩ := hF.storage address
  obtain ⟨s, hs, hskeyed⟩ := trieOf_keyed hslots
  rw [hs] at hstorage
  refine ⟨s, hstorage, hskeyed.canonical, ?_, ?_, ?_⟩
  · rcases h.storage address with hnull | hpart
    · exact .inl hnull
    · rw [hstorage] at hpart
      exact .inr (partialView_toNode hpart)
  · intro hne
    rw [← hstorage]
    apply hF.root
    rw [hstorage]
    exact fun hnull => hne (toNode_eq_null hnull)
  · have hread : F.stateTrie.get address.bytes =
        .ok ((t.entry (toNibs address.bytes)).bind Sum.getLeft?) := by
      rw [hstate, MptNode.get, getInternal_toNode, hkeyed.lookup]
      rfl
    have hleft : ∀ d, t.entry (toNibs address.bytes) ≠ some (.inr d) := hkeyed.opened _
    rcases hF.account address with ⟨hnone, hnull⟩ | ⟨account, hsome, hroot⟩
    · left
      rw [hread] at hnone
      rw [hstorage] at hnull
      refine ⟨?_, toNode_eq_null hnull⟩
      cases he : t.entry (toNibs address.bytes) with
      | none => rfl
      | some x =>
          cases x with
          | inl v => simp [he] at hnone
          | inr d => exact (hleft d he).elim
    · right
      rw [hread] at hsome
      rw [hstorage] at hroot
      refine ⟨account, ?_, hroot⟩
      cases he : t.entry (toNibs address.bytes) with
      | none => simp [he] at hsome
      | some x =>
          cases x with
          | inl v => simpa [he] using hsome
          | inr d => exact (hleft d he).elim

/-- Updates of a partial view. An insertion that succeeds agrees with the one on
the full trie. A deletion that succeeds agrees exactly when it does not collapse
a branch onto a hidden leaf or extension. The update of a partial state without
such deletions panics or ends with the root of the full state. -/
theorem sparse_updates_agree (keccak : Bytes → B256)
    (hempty : keccak [EMPTY_STRING_CODE] = EMPTY_ROOT) (calls : List Call)
    (hcalls : ∀ call ∈ calls, call.Allowed ∧ call.Fits ∧ call.key.length = 32) (W : MptNode)
    (hview : PartialView keccak W (trieOf calls)) :
    (∀ (key value : Bytes) (b : Bool) (W' : MptNode),
      W.insert key value = (.ok b, W') →
        ∃ T', (trieOf calls).insert key value = (.ok b, T') ∧
          W'.hash keccak = T'.hash keccak) ∧
    (∀ (key : Bytes) (b : Bool) (W' : MptNode),
      W.delete key = (.ok b, W') →
      Set.InjOn keccak {encoded |
        encoded ∈ W'.encodings keccak ++ ((trieOf calls).delete key).2.encodings keccak} →
        ((∃ T', (trieOf calls).delete key = (.ok b, T') ∧ W'.hash keccak = T'.hash keccak) ↔
          ¬CollapsesOntoHidden W (trieOf calls) (toNibs key))) ∧
    ∀ (P F P' : EthereumState) (post : HashedPostState), Consistent keccak F →
      StateView keccak P F → (post.accounts.map Prod.fst).Nodup →
      SafeUpdate keccak post P F post.accounts → P.update keccak post = .ok P' →
        ∃ F', F.update keccak post = .ok F' ∧ P'.stateRoot keccak = F'.stateRoot keccak := by
  obtain ⟨t, ht, hkeyed⟩ := trieOf_keyed hcalls
  rw [ht] at hview ⊢
  obtain ⟨w, rfl, hshown⟩ := partialView_toNode hview
  refine ⟨?_, ?_, ?_⟩
  · intro key value b W' h
    rw [MptNode.insert] at h ⊢
    split_ifs at h ⊢ with hvalue
    · cases h
    · obtain ⟨w', t', rfl, hrun, _, hview'⟩ := insert_partialView hkeyed.canonical hshown h
      exact ⟨toNode t', hrun, hash_eq_of_reference (view_reference hview')⟩
  · intro key b W' h hinj
    obtain ⟨w', t', rfl, hrun, hw', ht', hiff⟩ := delete_partialView hkeyed.canonical hshown h
    rw [MptNode.delete, hrun] at hinj ⊢
    rw [← hiff, ← delete_hash_iff hempty hkeyed hw' ht' hinj]
    constructor
    · rintro ⟨T', hT', hhash⟩
      cases hT'
      exact hhash
    · exact fun hhash => ⟨_, rfl, hhash⟩
  · intro P F P' post hF hP hnodup hsafe hrun
    obtain ⟨v, u, htracks⟩ := hP.tracks hF (post.accounts.map Prod.fst)
    exact updateAccounts_tracks post.accounts htracks hnodup hsafe hrun

theorem PartialView.refl {keccak : Bytes → B256} (node : MptNode) :
    PartialView keccak node node := by
  induction node with
  | Null => exact .null
  | Digest digest => exact .hidden rfl
  | Leaf path value => exact .leaf path value
  | Extension path child ih => exact .extension ih
  | Branch children ih =>
      refine .branch (fun _ => Iff.rfl) fun i a b ha hb => ?_
      cases ha.symm.trans hb
      exact ih i a ha

/-- Leaving a child of a branch out gives a partial view. -/
theorem partialView_hideChild {keccak : Bytes → B256} {path : Bytes}
    (children : Nibble → Option MptNode) (i : Nibble) (node : MptNode) {d : B256}
    (h : node.reference keccak = .Digest d) :
    PartialView keccak (.Extension path (.Branch (Function.update children i (some (.Digest d)))))
      (.Extension path (.Branch (Function.update children i (some node)))) := by
  refine .extension (.branch (fun j => ?_) (fun j a b ha hb => ?_))
  · by_cases hj : j = i <;> simp [Function.update, hj]
  · by_cases hj : j = i
    · rw [hj, Function.update_self] at ha hb
      cases ha
      cases hb
      exact .hidden h
    · rw [Function.update_of_ne hj] at ha hb
      cases ha.symm.trans hb
      exact .refl a

/-- Two subtries below a shared first nibble. -/
def forkedRoot (first second : MptNode) : MptNode :=
  .Extension [0x10] (.Branch (MptNode.splitChildren 0 first 1 second))

/-- The trie of `twoAccounts` with its second leaf left out. -/
def hiddenSibling : MptNode :=
  forkedRoot (.Leaf (0x20 :: List.replicate 31 0) [1]) (.Digest
    (.ofNat 0x5fb02495a793b00a15a7de4480ec2c10db80c8a43fc32bbcc4e87f6812ad931d))

theorem hiddenSibling_view :
    PartialView (tableHash twoAccountsDigests) hiddenSibling (trieOf twoAccounts) :=
  partialView_hideChild _ 1 (.Leaf (0x20 :: List.replicate 31 0) [2]) (by decide +kernel)

theorem delete_collapses_onto_hidden_leaf :
    PartialView (tableHash twoAccountsDigests) hiddenSibling (trieOf twoAccounts) ∧
      (hiddenSibling.delete (List.replicate 32 0)).1 = .ok true ∧
      ((trieOf twoAccounts).delete (List.replicate 32 0)).1 = .ok true ∧
      (hiddenSibling.delete (List.replicate 32 0)).2.hash (tableHash twoAccountsDigests) ≠
        ((trieOf twoAccounts).delete (List.replicate 32 0)).2.hash
          (tableHash twoAccountsDigests) :=
  ⟨hiddenSibling_view, by decide +kernel, by decide +kernel, by decide +kernel⟩

/-- An account without code and storage. -/
def freshAccount (nonce : UInt64) : TrieAccount := ⟨nonce, 0, EMPTY_ROOT, KECCAK_EMPTY⟩

/-- Two such accounts at hashed addresses that share their first nibble only. -/
def twoAddresses : List Call :=
  [.insert (List.replicate 32 0) (freshAccount 1).encode,
    .insert (1 :: List.replicate 31 0) (freshAccount 2).encode]

/-- Keccak-256 of the leaf of the second account. -/
def twoAddressesDigests : List (Bytes × B256) :=
  [([EMPTY_STRING_CODE], EMPTY_ROOT),
    ([0xf8, 0x69, 0xa0, 0x20] ++ List.replicate 31 0 ++ [0xb8, 0x46] ++ (freshAccount 2).encode,
      .ofNat 0x470df7a838c81d9fcc3f49f056bdeeddc9cdde40ab89fb132adb9db68a993d99)]

theorem twoAddresses_allowed :
    ∀ call ∈ twoAddresses, call.Allowed ∧ call.Fits ∧ call.key.length = 32 := by
  have h : ∀ n, (freshAccount n).encode ≠ [] := fun n => TrieAccount.encode_ne_nil _
  have h1 : (freshAccount 1).encode.length = 70 := by decide +kernel
  have h2 : (freshAccount 2).encode.length = 70 := by decide +kernel
  simp [twoAddresses, Call.Allowed, Call.Fits, Call.key, h, h1, h2]

/-- The state of the two accounts. -/
def twoAddressesState : EthereumState := ⟨trieOf twoAddresses, fun _ => none⟩

theorem twoAddressesState_consistent :
    Consistent (tableHash twoAddressesDigests) twoAddressesState where
  state := ⟨twoAddresses, twoAddresses_allowed, rfl⟩
  storage _ := ⟨[], by simp, rfl⟩
  account address := by
    have hkeys : PrefixFree {key | ∃ call ∈ twoAddresses, call.key = key} :=
      prefixFree_calls fun call hc => (twoAddresses_allowed call hc).2.2
    obtain ⟨t, hnode, ht⟩ := trieOf_represents twoAddresses hkeys fun call hc =>
      ⟨(twoAddresses_allowed call hc).1, call, hc, rfl⟩
    have hget : twoAddressesState.stateTrie.get address.bytes =
        .ok (contentsOf twoAddresses address.bytes) := by
      rw [← ht.get, ← hnode]
      rfl
    have hcontents : contentsOf twoAddresses = Function.update
        (Function.update (fun _ => none) (List.replicate 32 0) (some (freshAccount 1).encode))
        (1 :: List.replicate 31 0) (some (freshAccount 2).encode) := rfl
    rw [hget, hcontents]
    by_cases h2 : address.bytes = 1 :: List.replicate 31 0
    · exact .inr ⟨freshAccount 2, by rw [h2, Function.update_self], rfl⟩
    rw [Function.update_of_ne h2]
    by_cases h1 : address.bytes = List.replicate 32 0
    · exact .inr ⟨freshAccount 1, by rw [h1, Function.update_self], rfl⟩
    rw [Function.update_of_ne h1]
    exact .inl ⟨rfl, rfl⟩
  root _ h := (h rfl).elim

/-- The state of the two accounts with the leaf of the second one left out. -/
def hiddenAddressState : EthereumState :=
  ⟨forkedRoot (.Leaf (0x20 :: List.replicate 31 0) (freshAccount 1).encode) (.Digest
    (.ofNat 0x470df7a838c81d9fcc3f49f056bdeeddc9cdde40ab89fb132adb9db68a993d99)), fun _ => none⟩

theorem hiddenAddressState_view :
    StateView (tableHash twoAddressesDigests) hiddenAddressState twoAddressesState where
  state := partialView_hideChild _ 1 (.Leaf (0x20 :: List.replicate 31 0) (freshAccount 2).encode)
    (by decide +kernel)
  storage _ := .inl rfl

/-- A third account beside the two. -/
def threeAccounts : List Call := twoAccounts ++ [.insert (2 :: List.replicate 31 0) [3]]

def thirdLeaf : B256 := .ofNat 0x4dc304019a88f59d356c076ce03bc3812cf0fc8741ae6a39df1482ebace0cd71

/-- Keccak-256 of the third leaf, and of branch and root when the first account is deleted. -/
def threeAccountsDigests : List (Bytes × B256) :=
  let second : B256 := .ofNat 0x5fb02495a793b00a15a7de4480ec2c10db80c8a43fc32bbcc4e87f6812ad931d
  let branch : B256 := .ofNat 0x89d1996bdc4fb748dacfb35822a78c0ec79acf9681d1370f7ca5d8fc5a6b8da3
  twoAccountsDigests ++ [([0xe2, 0xa0, 0x20] ++ List.replicate 31 0 ++ [3], thirdLeaf),
    ([0xf8, 0x51, 0x80, 0xa0] ++ second.bytes ++ [0xa0] ++ thirdLeaf.bytes ++
      List.replicate 14 0x80, branch),
    ([0xe2, 0x10, 0xa0] ++ branch.bytes,
      .ofNat 0x27966ca85781afefdac64ccfcf402759069b0d1e5efa99d2912ba4c4f97fe3b1)]

/-- The trie of `threeAccounts` with its third leaf left out. -/
def hiddenThird : MptNode :=
  .Extension [0x10] (.Branch (Function.update
    (MptNode.splitChildren 0 (.Leaf (0x20 :: List.replicate 31 0) [1]) 1
      (.Leaf (0x20 :: List.replicate 31 0) [2])) 2 (some (.Digest thirdLeaf))))

theorem hiddenThird_view :
    PartialView (tableHash threeAccountsDigests) hiddenThird (trieOf threeAccounts) :=
  partialView_hideChild _ 2 (.Leaf (0x20 :: List.replicate 31 0) [3]) (by decide +kernel)

/-- Two children are left, so nothing collapses. -/
theorem hiddenThird_not_collapses :
    ¬CollapsesOntoHidden hiddenThird (trieOf threeAccounts) (toNibs (List.replicate 32 0)) := by
  intro h
  generalize trieOf threeAccounts = full at h
  cases h with
  | extension hnibs hkey h =>
      cases hnibs
      cases h with
      | here _ _ _ hother _ _ =>
          have hzero := hother 0 (by simp [MptNode.splitChildren])
          have hone := hother 1 (by simp [MptNode.splitChildren])
          have htwo := hother 2 (by simp)
          grind
      | branch ha _ h =>
          cases hkey
          cases ha
          cases h

/-- The first account becomes richer. -/
def richerFirst : HashedPostState := ⟨[(B256.zero, some ⟨1, 7, none⟩)], []⟩

/-- An account is changed next to a hidden leaf, one is deleted next to another, and a state is
updated of which a leaf is hidden. -/
theorem sparse_updates_agree_hidden_sibling :
    (∃ T', (trieOf twoAccounts).insert (List.replicate 32 0) [3] = (.ok true, T') ∧
      (hiddenSibling.insert (List.replicate 32 0) [3]).2.hash (tableHash twoAccountsDigests) =
        T'.hash (tableHash twoAccountsDigests)) ∧
    (∃ T', (trieOf threeAccounts).delete (List.replicate 32 0) = (.ok true, T') ∧
      (hiddenThird.delete (List.replicate 32 0)).2.hash (tableHash threeAccountsDigests) =
        T'.hash (tableHash threeAccountsDigests)) ∧
    ∃ P' F', hiddenAddressState.update (tableHash twoAddressesDigests) richerFirst = .ok P' ∧
      twoAddressesState.update (tableHash twoAddressesDigests) richerFirst = .ok F' ∧
      P'.stateRoot (tableHash twoAddressesDigests) =
        F'.stateRoot (tableHash twoAddressesDigests) := by
  refine ⟨?_, ?_, ?_⟩
  · refine (sparse_updates_agree (tableHash twoAccountsDigests) (by decide) twoAccounts
      (by simp [twoAccounts, Call.Allowed, Call.Fits, Call.key]) hiddenSibling
      hiddenSibling_view).1 _ _ true _ (Prod.ext ?_ rfl)
    decide +kernel
  · refine ((sparse_updates_agree (tableHash threeAccountsDigests) (by decide) threeAccounts
      (by simp [threeAccounts, twoAccounts, Call.Allowed, Call.Fits, Call.key]) hiddenThird
      hiddenThird_view).2.1 _ true _ (Prod.ext ?_ rfl) ?_).mpr hiddenThird_not_collapses
    · decide +kernel
    · exact injOn_tableHash (by decide +kernel) (by decide +kernel)
  · have hok : (hiddenAddressState.update (tableHash twoAddressesDigests) richerFirst).isOk := by
      decide +kernel
    obtain ⟨P', hrun⟩ := exists_of_isOk hok
    obtain ⟨F', hF', hroot⟩ := (sparse_updates_agree (tableHash twoAddressesDigests) (by decide)
      [] (by simp) .Null .null).2.2 hiddenAddressState twoAddressesState P' richerFirst
      twoAddressesState_consistent hiddenAddressState_view (by decide)
      ⟨fun _ _ _ _ => trivial, fun _ _ _ _ => trivial⟩ hrun
    exact ⟨P', F', hrun, hF', hroot⟩

end FluentStf.Mpt
