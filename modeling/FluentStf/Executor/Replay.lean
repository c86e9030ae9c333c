import FluentStf.Executor.Soundness
import FluentStf.Mpt.MultiproofReads

/-! Blocks on parts of the state. A host that has proofs of the accounts and slots of a block, from
before and after it, can carry out the block on what the proofs show and gets the root of the full
state. On the way there may be tries that are not those of any state. -/
namespace FluentStf.Executor

open Mpt

section Frame

variable {keccak : Bytes → B256} {world : World} {accounts accounts' : B256 → Option TrieAccount}
  {F F' : EthereumState} {post : HashedPostState}

/-- Accounts that a block does not name stay. -/
theorem World.Stored.account_frame (h : world.Stored keccak accounts)
    (h' : (world.after post).Stored keccak accounts') {address : B256}
    (hnot : address ∉ post.accounts.map Prod.fst) : accounts' address = accounts address := by
  have hlookup := lookup_eq_none_of_not_mem hnot
  refine h'.account_eq h ?_ (funext fun key => ?_)
  · simp only [World.after, hlookup]
  · simp only [World.slotContents, World.after, hlookup]

/-- Accounts that a block removes are gone. -/
theorem World.Stored.account_removed (h' : (world.after post).Stored keccak accounts')
    (hdistinct : post.Distinct) {address : B256} (hmem : (address, none) ∈ post.accounts) :
    accounts' address = none := by
  rw [h'.account_eq_none]
  simp only [World.after, lookup_eq_some_of_mem hdistinct.accounts hmem, Option.map_none]

/-- Accounts that a block sets, with the storage root they have after it. -/
theorem World.HeldBy.account_set (h' : (world.after post).HeldBy keccak accounts' F')
    (hdistinct : post.Distinct) {address : B256} {account : Account}
    (hmem : (address, some account) ∈ post.accounts) :
    accounts' address = some ⟨account.nonce, account.balance,
      (F'.storageTrie address).hash keccak, account.getBytecodeHash⟩ := by
  have hbasics := h'.stored.basics address
  simp only [World.after, lookup_eq_some_of_mem hdistinct.accounts hmem, Option.map_some,
    Option.map_eq_some_iff] at hbasics
  obtain ⟨found, hfound, hsame⟩ := hbasics
  rw [hfound, ← h'.storageRoot hfound]
  obtain ⟨nonce, balance, storageRoot, codeHash⟩ := found
  simp only [AccountBasics.ofTrie, AccountBasics.mk.injEq] at hsame
  simp [hsame]

/-- The changed slots lead from the storage trie that was opened to the one after the block. -/
theorem World.HeldBy.putSlots (h : world.HeldBy keccak accounts F)
    (h' : (world.after post).HeldBy keccak accounts' F') (hdistinct : post.Distinct)
    {address : B256} {account : Account} (hmem : (address, some account) ∈ post.accounts) :
    (if (post.storageOf address).wiped then .Null else F.storageTrie address).putAll
      ((post.storageOf address).storage.map fun slot => (slot.1, MptNode.slotValue slot.2)) =
        some (F'.storageTrie address) := by
  have hafter : (world.after post).slotContents address = fun key => MptNode.slotValue
      (World.slotAfter (post.storageOf address) (world.slot address) key) := by
    funext key
    simp only [World.slotContents, World.after,
      lookup_eq_some_of_mem hdistinct.accounts hmem]
  have hbuilds : ∃ base : B256 → U256,
      Builds (onWords fun key => MptNode.slotValue (base key))
        (if (post.storageOf address).wiped then .Null else F.storageTrie address) ∧
      World.slotAfter ⟨false, (post.storageOf address).storage⟩ base =
        World.slotAfter (post.storageOf address) (world.slot address) := by
    cases hwiped : (post.storageOf address).wiped with
    | true =>
        refine ⟨fun _ => 0, ?_, funext fun key => ?_⟩
        · have hnone : (fun _ : B256 => MptNode.slotValue 0) = fun _ => none := rfl
          rw [if_pos rfl, hnone, onWords_none]
          exact Builds.empty
        · simp [World.slotAfter, hwiped]
    | false =>
        refine ⟨world.slot address, ?_, funext fun key => ?_⟩
        · rw [if_neg (by simp)]
          exact h.builds_storageTrie address
        · simp [World.slotAfter, hwiped]
  obtain ⟨base, hbase, hslots⟩ := hbuilds
  obtain ⟨trie, hput, htrie⟩ := hbase.putSlots _ (hdistinct.slots address)
  rw [MptNode.foldlM_putSlot] at hput
  have htarget := h'.builds_storageTrie address
  rw [hafter, ← hslots, ← World.newSlots_eq] at htarget
  rw [hput, htrie.unique htarget]

theorem World.HeldBy.accountRoot (h : world.HeldBy keccak accounts F) (address : B256) :
    ((accounts address).map TrieAccount.storageRoot).getD EMPTY_ROOT =
      (F.storageTrie address).hash keccak := by
  cases haccount : accounts address with
  | none =>
      rw [h.storageTrie_absent haccount]
      rfl
  | some account => exact h.storageRoot haccount

theorem World.HeldBy.complete (h : world.HeldBy keccak accounts F) : Complete keccak F where
  state := by
    refine h.state.isTrie fun key value hvalue => ?_
    rw [accountContents, onWords] at hvalue
    split_ifs at hvalue
    obtain ⟨account, -, rfl⟩ := Option.map_eq_some_iff.mp hvalue
    exact account.encode_length_lt
  storage address := by
    refine (h.builds_storageTrie address).isTrie fun key value hvalue => ?_
    rw [onWords] at hvalue
    split_ifs at hvalue
    exact (world.slotContents_size hvalue).2
  account address := by
    have hget := h.state.get address.bytes
    rw [accountContents, onWords_bytes] at hget
    cases haccount : accounts address with
    | none =>
        rw [haccount] at hget
        exact .inl ⟨hget, h.storageTrie_absent haccount⟩
    | some account =>
        rw [haccount] at hget
        exact .inr ⟨account, hget, h.storageRoot haccount⟩

end Frame

section Update

variable {keccak : Bytes → B256} {post : HashedPostState} {W F F' : EthereumState}

/-- A state on which a block can be carried out: the accounts of the block are shown, and of their
storage the slots that are set one by one. -/
structure Updatable (keccak : Bytes → B256) (post : HashedPostState) (W F F' : EthereumState) :
    Prop where
  levelled : W.Levelled
  state : ∃ words, post.accounts.map Prod.fst ⊆ words ∧
    Reveals keccak words W.stateTrie F.stateTrie F'.stateTrie
  storage : ∀ address account, (address, some account) ∈ post.accounts → ∃ opened words,
    W.recoverStorage address = .ok opened ∧
    ((post.storageOf address).wiped = false →
      (post.storageOf address).storage.map Prod.fst ⊆ words) ∧
    Reveals keccak words opened (F.storageTrie address) (F'.storageTrie address)

theorem Updatable.update (h : Updatable keccak post W F F') (hdistinct : post.Distinct)
    {world : World} {accounts accounts' : B256 → Option TrieAccount}
    (hworld : world.HeldBy keccak accounts F)
    (hafter : (world.after post).HeldBy keccak accounts' F') :
    ∃ W', W.update keccak post = .ok W' ∧ W'.stateRoot keccak = F'.stateRoot keccak := by
  refine update_rewritten h.levelled hdistinct hworld.state hafter.state ?_
    (fun _ => hworld.stored.account_frame hafter.stored)
    (fun _ => hafter.stored.account_removed hdistinct) fun address account hmem => ?_
  · obtain ⟨words, hwords, hreveals⟩ := h.state
    refine (hreveals.rewrites fun word hword => ?_).mono hwords
    rw [hafter.state.get, hworld.state.get, accountContents, accountContents, onWords_bytes,
      onWords_bytes, hworld.stored.account_frame hafter.stored (mt (@hwords word) hword)]
  · obtain ⟨opened, words, hopened, hwords, hreveals⟩ := h.storage address account hmem
    refine ⟨_, _, F'.storageTrie address, by rw [EthereumState.openStorage, hopened], ?_,
      hworld.putSlots hafter hdistinct hmem, hafter.account_set hdistinct hmem⟩
    cases hwiped : (post.storageOf address).wiped with
    | true =>
        obtain ⟨t', ht', hkeyed'⟩ := hafter.keyed_storage address
        rw [ht']
        exact .empty hkeyed'.canonical
    | false =>
        refine (hreveals.rewrites fun word hword => ?_).mono (hwords hwiped)
        have hnone : (post.storageOf address).storage.lookup word = none :=
          lookup_eq_none_of_not_mem (mt (@hwords hwiped word) hword)
        rw [(hafter.builds_storageTrie address).get, (hworld.builds_storageTrie address).get,
          onWords_bytes, onWords_bytes]
        simp [World.slotContents, World.after, World.slotAfter, hnone, hwiped,
          lookup_eq_some_of_mem hdistinct.accounts hmem]

/-- A storage trie with the root of its account is opened as it is. -/
theorem recoverStorage_of_root {address : B256} {found : Option TrieAccount}
    (hread : W.stateTrie.getRlp address.bytes = .ok found)
    (hroot : (found.map TrieAccount.storageRoot).getD EMPTY_ROOT =
      (W.storageTrie address).hash keccak) :
    W.recoverStorage address = .ok (W.storageTrie address) := by
  rw [EthereumState.recoverStorage]
  split_ifs with hempty
  · have hnull : W.storageTrie address = .Null := by
      cases htrie : W.storageTrie address <;> simp_all [MptNode.isEmpty]
    rw [hread]
    cases found with
    | none => rfl
    | some account =>
        have hsame : account.storageRoot = EMPTY_ROOT := by
          rw [hnull] at hroot
          exact hroot
        simp [hsame]
  · rfl

/-- An empty storage trie is taken for one that was not asked for. -/
theorem recoverStorage_of_null {address : B256} {found : Option TrieAccount}
    (hread : W.stateTrie.getRlp address.bytes = .ok found)
    (hnull : W.storageTrie address = .Null) :
    W.recoverStorage address =
      .ok (nodeFromDigest ((found.map TrieAccount.storageRoot).getD EMPTY_ROOT)) := by
  have hisEmpty : MptNode.isEmpty .Null = true := rfl
  rw [EthereumState.recoverStorage, hnull, if_pos hisEmpty, hread]
  cases found with
  | none => rfl
  | some account =>
      simp only [Option.map_some, Option.getD_some, nodeFromDigest]
      by_cases hroot : account.storageRoot = EMPTY_ROOT ∨ account.storageRoot = B256.zero
      · rw [if_pos hroot, if_neg (by tauto)]
      · rw [if_neg hroot, if_pos (by tauto)]

end Update

section Multiproofs

variable {reader : RlpReader} {keccak : Bytes → B256} {world : World}
  {accounts accounts' : B256 → Option TrieAccount} {F F' : EthereumState} {post : HashedPostState}
  {before after : MultiProof} {targets : Targets}

/-- A storage trie that was not asked for is opened as a bare root. -/
theorem reveals_root (hempty : keccak [EMPTY_STRING_CODE] = EMPTY_ROOT)
    (hworld : world.HeldBy keccak accounts F)
    (hafter : (world.after post).HeldBy keccak accounts' F')
    (hinj : Set.InjOn keccak (hashedEncodings keccak F F' after)) {address : B256}
    (hzero : (F.storageTrie address).hash keccak ≠ B256.zero) :
    Reveals keccak [] (nodeFromDigest ((F.storageTrie address).hash keccak))
      (F.storageTrie address) (F'.storageTrie address) := by
  obtain ⟨t, ht, hkeyed⟩ := hworld.keyed_storage address
  obtain ⟨t', ht', hkeyed'⟩ := hafter.keyed_storage address
  have hown : (toNode t).encode keccak ∈ (toNode t).encodings keccak :=
    MptNode.encode_mem_encodings keccak (isDigest_toNode hkeyed.opened.ne_stub)
  have hencoded : (toNode t).encode keccak ∈ hashedEncodings keccak F F' after :=
    .inr ⟨address, by
      rw [ht]
      exact .tail _ (List.mem_append_left _ (List.mem_append_left _ hown))⟩
  rw [ht] at hzero ⊢
  rw [ht']
  exact .root hkeyed hkeyed' (hkeyed.eq_null_of_hash hempty hinj
    (.inl (.head _)) hencoded) hzero

/-- A state from two multiproofs for the accounts of a block and the slots it sets one by one. -/
theorem updatable_of_multiproofs (hproved : Proved keccak reader F F' targets before after)
    (hworld : world.HeldBy keccak accounts F)
    (hafter : (world.after post).HeldBy keccak accounts' F')
    (hzero : ∀ address, (F.storageTrie address).hash keccak ≠ B256.zero)
    (hnodup : (targets.map Prod.fst).Nodup) (hne : targets ≠ [])
    (haccounts : post.accounts.map Prod.fst ⊆ targets.map Prod.fst)
    (hslots : ∀ address slots account, (address, slots) ∈ targets →
      (address, some account) ∈ post.accounts → (post.storageOf address).wiped = false →
        (post.storageOf address).storage.map Prod.fst ⊆ slots)
    {fuel : Nat} {state : EthereumState}
    (hstate : transitionMultiproofsToTries reader keccak fuel (F.stateRoot keccak) before after =
      .ok state) : Updatable keccak post state F F' := by
  obtain ⟨hreveals, hstorage⟩ := hproved.reveals hnodup hne hstate
  have hbuilt := hproved.builtState hstate
  refine ⟨⟨hreveals.levelled, fun address trie htrie => ?_⟩, ⟨_, haccounts, hreveals⟩,
    fun address account hmem => ?_⟩
  · obtain ⟨slots, -, ⟨-, rfl⟩ | hshown⟩ := hstorage address trie htrie
    · exact MptNode.levelled_null
    · exact hshown.levelled
  · obtain ⟨⟨address, slots⟩, htarget, rfl⟩ :=
      List.mem_map.mp (haccounts (List.mem_map_of_mem hmem))
    have hread := hbuilt.account _ htarget
    rw [getRlp_accounts hworld.state] at hread
    obtain ⟨trie, htrie⟩ := Option.ne_none_iff_exists'.mp (hbuilt.storage _ htarget)
    have hown : state.storageTrie address = trie := by
      rw [EthereumState.storageTrie, htrie, Option.getD_some]
    obtain ⟨slots', htarget', hcase⟩ := hstorage _ trie htrie
    obtain rfl := Targets.unique hnodup htarget' htarget
    have hcovered := hslots _ _ account htarget hmem
    rcases hcase with ⟨rfl, rfl⟩ | hshown
    · refine ⟨_, [], recoverStorage_of_null hread hown, hcovered, ?_⟩
      rw [hworld.accountRoot]
      exact reveals_root hproved.empty hworld hafter hproved.injOn (hzero address)
    · refine ⟨trie, slots', ?_, hcovered, hshown⟩
      rw [recoverStorage_of_root hread (by rw [hworld.accountRoot, hown, hshown.hash]), hown]

end Multiproofs

end FluentStf.Executor
