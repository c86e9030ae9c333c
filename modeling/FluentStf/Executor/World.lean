import FluentStf.Mpt.Shown

/-! The accounts and slots of the chain as maps, what a block makes of them, and the state root
they have. Tries hold such a world if they are built for its maps. -/
namespace FluentStf.Executor

open Mpt

/-- An account without its storage. -/
structure AccountBasics where
  nonce : UInt64
  balance : U256
  codeHash : B256
deriving DecidableEq

def AccountBasics.ofTrie (account : TrieAccount) : AccountBasics :=
  ⟨account.nonce, account.balance, account.codeHash⟩

/-- All accounts and slots, by the hashes of addresses and indices. A slot that is not set is
zero. -/
@[ext] structure World where
  account : B256 → Option AccountBasics
  slot : B256 → B256 → U256
  slot_absent : ∀ address, account address = none → ∀ key, slot address key = 0

namespace World

/-- The slots of an account after a block. -/
def slotAfter (storage : HashedStorage) (old : B256 → U256) (key : B256) : U256 :=
  match storage.storage.lookup key with
  | some value => value
  | none => if storage.wiped then 0 else old key

/-- The world after a block. -/
def after (world : World) (post : HashedPostState) : World where
  account address := match post.accounts.lookup address with
    | none => world.account address
    | some change =>
        change.map fun account => ⟨account.nonce, account.balance, account.getBytecodeHash⟩
  slot address key := match post.accounts.lookup address with
    | none => world.slot address key
    | some none => 0
    | some (some _) => slotAfter (post.storageOf address) (world.slot address) key
  slot_absent := by
    intro address h key
    cases hchange : post.accounts.lookup address with
    | none =>
        rw [hchange] at h
        exact world.slot_absent address h key
    | some change =>
        cases change with
        | none => rfl
        | some account =>
            rw [hchange] at h
            cases h

/-- The contents of the storage trie of an account. -/
def slotContents (world : World) (address key : B256) : Option Bytes :=
  MptNode.slotValue (world.slot address key)

theorem newSlots_eq (storage : HashedStorage) (old : B256 → U256) :
    newSlots storage (fun key => MptNode.slotValue (old key)) =
      fun key => MptNode.slotValue (slotAfter storage old key) := by
  funext key
  rw [newSlots, slotAfter]
  cases storage.storage.lookup key with
  | some value => rfl
  | none =>
      cases storage.wiped with
      | true => rfl
      | false => rfl

theorem slotContents_absent (world : World) {address : B256} (h : world.account address = none) :
    world.slotContents address = fun _ => none := by
  funext key
  rw [slotContents, world.slot_absent address h]
  rfl

theorem slotContents_size (world : World) {address key : B256} {value : Bytes}
    (h : world.slotContents address key = some value) : value ≠ [] ∧ value.length < 2 ^ 63 := by
  refine ⟨fun hnil => slotValue_ne_nil _ (hnil ▸ h), ?_⟩
  rw [slotContents, MptNode.slotValue] at h
  split_ifs at h
  cases h
  have hlength := Rlp.toBigEndian_length_le (world.slot address key).val 32
    (world.slot address key).isLt
  have hle := Rlp.encodeBytes_length_le (Rlp.toBigEndian (world.slot address key).val) (by omega)
  rw [Rlp.encodeNat]
  omega

section

variable (keccak : Bytes → B256)

/-- The accounts of a world with their storage roots. -/
structure Stored (world : World) (accounts : B256 → Option TrieAccount) : Prop where
  basics : ∀ address, (accounts address).map AccountBasics.ofTrie = world.account address
  root : ∀ address account, accounts address = some account →
    IsRoot keccak (onWords (world.slotContents address)) account.storageRoot

/-- The state root of a world. -/
def IsStateRoot (world : World) (root : B256) : Prop :=
  ∃ accounts, world.Stored keccak accounts ∧ IsRoot keccak (accountContents accounts) root

/-- Tries that are built for the world, with all accounts and slots. -/
structure HeldBy (world : World) (accounts : B256 → Option TrieAccount) (F : EthereumState) :
    Prop where
  stored : world.Stored keccak accounts
  state : Builds (accountContents accounts) F.stateTrie
  storage : ∀ address, ∃ trie, F.storageTries address = some trie ∧
    Builds (onWords (world.slotContents address)) trie

end

def emptyTries : EthereumState := ⟨.Null, fun _ => some .Null⟩

section

variable {keccak : Bytes → B256} {world : World} {accounts : B256 → Option TrieAccount}
  {F : EthereumState}

/-- A world without accounts. -/
theorem heldBy_emptyTries (h : ∀ address, world.account address = none) :
    world.HeldBy keccak (fun _ => none) emptyTries where
  stored := ⟨fun address => (h address).symm, by simp⟩
  state := by
    have hnone : accountContents (fun _ => none) = fun _ => none := onWords_none
    rw [hnone]
    exact Builds.empty
  storage address := by
    refine ⟨.Null, rfl, ?_⟩
    rw [world.slotContents_absent (h address), onWords_none]
    exact Builds.empty

theorem Stored.account_eq_none (h : world.Stored keccak accounts) {address : B256} :
    accounts address = none ↔ world.account address = none := by
  rw [← h.basics]
  simp

/-- An account with its storage root is determined by its basics and its slots. -/
theorem Stored.account_eq {world' : World} {accounts' : B256 → Option TrieAccount}
    (h : world.Stored keccak accounts) (h' : world'.Stored keccak accounts') {address : B256}
    (hbasics : world.account address = world'.account address)
    (hslots : world.slotContents address = world'.slotContents address) :
    accounts address = accounts' address := by
  rw [← h.basics, ← h'.basics] at hbasics
  cases ha : accounts address with
  | none =>
      rw [ha] at hbasics
      exact (Option.map_eq_none_iff.mp hbasics.symm).symm
  | some account =>
      cases ha' : accounts' address with
      | none =>
          rw [ha, ha'] at hbasics
          cases hbasics
      | some account' =>
          have hroot := (h.root address account ha).unique (hslots ▸ h'.root address account' ha')
          rw [ha, ha'] at hbasics
          obtain ⟨nonce, balance, storageRoot, codeHash⟩ := account
          obtain ⟨nonce', balance', storageRoot', codeHash'⟩ := account'
          simp only [Option.map_some, AccountBasics.ofTrie, Option.some.injEq,
            AccountBasics.mk.injEq] at hbasics hroot ⊢
          simp [hbasics, hroot]

/-- A world has one state root. -/
theorem IsStateRoot.unique {root root' : B256} (h : world.IsStateRoot keccak root)
    (h' : world.IsStateRoot keccak root') : root = root' := by
  obtain ⟨accounts, hstored, hroot⟩ := h
  obtain ⟨accounts', hstored', hroot'⟩ := h'
  obtain rfl : accounts = accounts' := funext fun _ => hstored.account_eq hstored' rfl rfl
  exact hroot.unique hroot'

namespace HeldBy

variable (h : world.HeldBy keccak accounts F)

include h

theorem isStateRoot :
    world.IsStateRoot keccak (F.stateRoot keccak) :=
  ⟨accounts, h.stored, F.stateTrie, h.state, rfl⟩

theorem builds_storageTrie (address : B256) :
    Builds (onWords (world.slotContents address)) (F.storageTrie address) := by
  obtain ⟨trie, htrie, hbuilds⟩ := h.storage address
  rw [EthereumState.storageTrie, htrie]
  exact hbuilds

/-- The storage trie has the root that the account has. -/
theorem storageRoot {address : B256} {account : TrieAccount}
    (haccount : accounts address = some account) :
    account.storageRoot = (F.storageTrie address).hash keccak := by
  obtain ⟨trie, htrie, hroot⟩ := h.stored.root address account haccount
  rw [← hroot, htrie.unique (h.builds_storageTrie address)]

theorem storageTrie_absent {address : B256} (haccount : accounts address = none) :
    F.storageTrie address = .Null := by
  have hbuilds := h.builds_storageTrie address
  rw [slotContents_absent _ (h.stored.account_eq_none.mp haccount), onWords_none] at hbuilds
  exact hbuilds.unique Builds.empty

theorem keyed_state :
    ∃ t, F.stateTrie = toNode t ∧ Keyed 64 t := by
  refine h.state.keyed fun key value hvalue => ?_
  rw [accountContents, onWords] at hvalue
  split_ifs at hvalue
  obtain ⟨account, -, rfl⟩ := Option.map_eq_some_iff.mp hvalue
  exact ⟨account.encode_ne_nil, account.encode_length_lt⟩

theorem keyed_storage (address : B256) :
    ∃ t, F.storageTrie address = toNode t ∧ Keyed 64 t := by
  refine (h.builds_storageTrie address).keyed fun key value hvalue => ?_
  rw [onWords] at hvalue
  split_ifs at hvalue
  exact world.slotContents_size hvalue

/-- The update of the tries does not panic and leads to the world after the block. -/
theorem update {post : HashedPostState}
    (hnonzero : ∀ address, (F.storageTrie address).hash keccak ≠ B256.zero)
    (haccounts : (post.accounts.map Prod.fst).Nodup)
    (hslots : ∀ address, ((post.storageOf address).storage.map Prod.fst).Nodup) :
    ∃ F', F.update keccak post = .ok F' ∧
      (world.after post).IsStateRoot keccak (F'.stateRoot keccak) := by
  have hready : ∀ change ∈ post.accounts,
      AccountReady keccak F accounts world.slotContents post change.1 := by
    intro change _
    obtain ⟨trie, htrie, hbuilds⟩ := h.storage change.1
    refine ⟨fun other hother => ?_, fun account haccount => ?_, fun haccount => ?_, fun _ _ => ?_⟩
    · rw [htrie] at hother
      cases hother
      exact hbuilds
    · refine ⟨h.stored.root _ _ haccount, ?_⟩
      rw [h.storageRoot haccount]
      exact hnonzero _
    · exact slotContents_absent _ (h.stored.account_eq_none.mp haccount)
    · exact .inl (by simp [htrie])
  obtain ⟨F', new, hrun, hbuilds, hafter⟩ :=
    putAccounts_full post.accounts h.state hready haccounts hslots
  refine ⟨F', by rw [EthereumState.update, EthereumState.updateAccounts_eq, hrun], new, ?_, _,
    hbuilds, rfl⟩
  constructor
  · intro address
    have haddress := hafter address
    rw [AccountAfter] at haddress
    simp only [World.after]
    cases hchange : post.accounts.lookup address with
    | none =>
        rw [hchange] at haddress
        rw [haddress]
        exact h.stored.basics address
    | some change =>
        rw [hchange] at haddress
        cases change with
        | none => rw [haddress]; rfl
        | some account =>
            obtain ⟨root, -, hnew⟩ := haddress
            rw [hnew]
            rfl
  · intro address account haccount
    have haddress := hafter address
    rw [AccountAfter] at haddress
    have hcontents : ∀ slots : B256 → U256,
        (∀ key, (world.after post).slot address key = slots key) →
        (world.after post).slotContents address = fun key => MptNode.slotValue (slots key) := by
      intro slots hsame
      funext key
      rw [slotContents, hsame]
    cases hchange : post.accounts.lookup address with
    | none =>
        rw [hchange] at haddress
        rw [haddress] at haccount
        rw [hcontents (world.slot address) fun key => by simp only [World.after, hchange]]
        exact h.stored.root address account haccount
    | some change =>
        rw [hchange] at haddress
        cases change with
        | none =>
            rw [haddress] at haccount
            cases haccount
        | some changed =>
            obtain ⟨root, hroot, hnew⟩ := haddress
            rw [hnew] at haccount
            cases haccount
            rw [hcontents (slotAfter (post.storageOf address) (world.slot address)) fun key => by
              simp only [World.after, hchange], ← newSlots_eq]
            exact hroot

end HeldBy

end

end World

end FluentStf.Executor
