import FluentStf.Mpt.StateWitness
import FluentStf.Mpt.Writes

/-! The update of a state of which everything is present computes the root of the changed
account map. The root of a map is that of the trie which insertions and deletions build for it;
a write of the trie is a write of the map. -/
namespace FluentStf.Mpt

open Radix EthereumState

/-- The trie is built for the map, by calls with 32-byte keys. -/
def Builds (contents : Bytes → Option Bytes) (node : MptNode) : Prop :=
  ∃ calls : List Call, (∀ call ∈ calls, call.Allowed ∧ call.key.length = 32) ∧
    contentsOf calls = contents ∧ trieOf calls = node

/-- The root of a map. -/
def IsRoot (keccak : Bytes → B256) (contents : Bytes → Option Bytes) (root : B256) : Prop :=
  ∃ node, Builds contents node ∧ node.hash keccak = root

namespace Builds

variable {contents : Bytes → Option Bytes} {node : MptNode}

theorem empty : Builds (fun _ => none) .Null := ⟨[], by simp, rfl, rfl⟩

variable (h : Builds contents node)

include h

theorem represents :
    ∃ t, node = toNode t ∧ Represents t contents ∧
      ∀ key, contents key ≠ none → key ∈ {key : Bytes | key.length = 32} := by
  obtain ⟨calls, hcalls, rfl, rfl⟩ := h
  obtain ⟨t, ht, hmap⟩ := trieOf_represents calls
    (prefixFree_of_length fun key (hkey : key ∈ {key : Bytes | key.length = 32}) => hkey) hcalls
  refine ⟨t, ht, hmap, fun key hkey => ?_⟩
  obtain ⟨value, hvalue⟩ := Option.ne_none_iff_exists'.mp hkey
  exact (hcalls _ (insert_mem_of_contents hvalue)).2

theorem get (key : Bytes) : node.get key = .ok (contents key) := by
  obtain ⟨t, rfl, ht, _⟩ := h.represents
  exact ht.get key

/-- A map has one trie. -/
theorem unique {node' : MptNode} (h' : Builds contents node') :
    node = node' := by
  obtain ⟨t, rfl, ht, _⟩ := h.represents
  obtain ⟨t', rfl, ht', _⟩ := h'.represents
  rw [ht.unique ht']

/-- A trie has one map. -/
theorem contents_eq {contents' : Bytes → Option Bytes} (h' : Builds contents' node) :
    contents = contents' := by
  funext key
  have hget := (h.get key).symm.trans (h'.get key)
  exact Except.ok.inj hget

/-- A write of the trie is a write of the map. -/
theorem put {key : Bytes} (hkey : key.length = 32) {x : Option Bytes} (hx : x ≠ some []) :
    ∃ node', node.put key x = some node' ∧
      Builds (Function.update contents key x) node' := by
  obtain ⟨t, hnode, ht, hdom⟩ := h.represents
  obtain ⟨calls, hcalls, rfl, rfl⟩ := h
  -- The write is one more call.
  have more : ∀ call : Call, call.Allowed → call.key = key →
      ∃ node', call.run (trieOf calls) = (.ok (call.reply (contentsOf calls)), node') ∧
        Builds (call.apply (contentsOf calls)) node' := by
    intro call hallowed hcall
    obtain ⟨t', hrun, _⟩ := call.run_represents ht
      (prefixFree_of_length fun key (hkey : key ∈ {key : Bytes | key.length = 32}) => hkey) hdom
      hallowed (by rw [hcall]; exact hkey)
    rw [← hnode] at hrun
    refine ⟨toNode t', hrun, calls ++ [call], ?_, ?_, ?_⟩
    · intro c hc
      rcases List.mem_append.mp hc with hc | hc
      · exact hcalls c hc
      · rw [List.mem_singleton.mp hc, hcall]
        exact ⟨hallowed, hkey⟩
    · rw [contentsOf, applyCalls, List.foldl_append]
      rfl
    · rw [trieOf, runCalls_append, ← trieOf, runCalls, hrun]
      rfl
  cases x with
  | none =>
      obtain ⟨node', hrun, hbuilds⟩ := more (.delete key) trivial rfl
      refine ⟨node', ?_, hbuilds⟩
      rw [MptNode.put_delete]
      cases hdelete : (trieOf calls).delete key with
      | mk result rest =>
          simp only [Call.run, hdelete, Prod.mk.injEq] at hrun
          obtain ⟨hresult, rfl⟩ := hrun
          cases result with
          | ok b => rfl
          | error e => cases hresult
  | some value =>
      have hvalue : value ≠ [] := fun hempty => hx (congrArg some hempty)
      obtain ⟨node', hrun, hbuilds⟩ := more (.insert key value) hvalue rfl
      refine ⟨node', ?_, hbuilds⟩
      rw [MptNode.put_insertRlp, MptNode.insertRlp]
      cases hinsert : (trieOf calls).insertInternal (toNibs key) value with
      | mk result rest =>
          simp only [Call.run, MptNode.insert, if_neg hvalue, hinsert, Prod.mk.injEq] at hrun
          obtain ⟨hresult, rfl⟩ := hrun
          cases result with
          | ok b => rfl
          | error e => cases hresult

end Builds

namespace IsRoot

variable {keccak : Bytes → B256} {contents : Bytes → Option Bytes} {root root' : B256}

theorem unique (h : IsRoot keccak contents root) (h' : IsRoot keccak contents root') :
    root = root' := by
  obtain ⟨node, hnode, rfl⟩ := h
  obtain ⟨node', hnode', rfl⟩ := h'
  rw [hnode.unique hnode']

theorem empty (keccak : Bytes → B256) : IsRoot keccak (fun _ => none) EMPTY_ROOT :=
  ⟨.Null, Builds.empty, rfl⟩

end IsRoot

/-- A map over words, as a map over byte strings. -/
def onWords (contents : B256 → Option Bytes) (key : Bytes) : Option Bytes :=
  if h : key.length = 32 then contents ⟨key, h⟩ else none

theorem onWords_bytes (contents : B256 → Option Bytes) (key : B256) :
    onWords contents key.bytes = contents key := by
  rw [onWords, dif_pos key.length_eq]

theorem onWords_none : onWords (fun _ => none) = fun _ => none := by
  funext key
  rw [onWords]
  split <;> rfl

theorem onWords_injective {f g : B256 → Option Bytes} (h : onWords f = onWords g) : f = g := by
  funext key
  rw [← onWords_bytes f, h, onWords_bytes]

theorem update_onWords (contents : B256 → Option Bytes) (key : B256) (x : Option Bytes) :
    Function.update (onWords contents) key.bytes x =
      onWords (Function.update contents key x) := by
  funext other
  by_cases hlength : other.length = 32
  · by_cases hother : (⟨other, hlength⟩ : B256) = key
    · subst hother
      simp [onWords, hlength]
    · have hbytes : other ≠ key.bytes := fun h => hother (B256.ext h)
      simp [onWords, hlength, hother, hbytes]
  · have hbytes : other ≠ key.bytes := by
      rintro rfl
      exact hlength key.length_eq
    simp [onWords, hlength, hbytes]

/-- The contents of the trie of an account map. -/
def accountContents (accounts : B256 → Option TrieAccount) : Bytes → Option Bytes :=
  onWords fun address => (accounts address).map TrieAccount.encode

theorem update_accountContents (accounts : B256 → Option TrieAccount) (address : B256)
    (account : Option TrieAccount) :
    Function.update (accountContents accounts) address.bytes (account.map TrieAccount.encode) =
      accountContents (Function.update accounts address account) := by
  have hmap := Function.comp_update (Option.map TrieAccount.encode) accounts address account
  rw [accountContents, update_onWords]
  exact congrArg onWords hmap.symm

/-- The slots after a change: the new values where there are some, none for a zero, and else
the old ones unless they were wiped. -/
def newSlots (storage : HashedStorage) (old : B256 → Option Bytes) (key : B256) : Option Bytes :=
  match storage.storage.lookup key with
  | some value => MptNode.slotValue value
  | none => if storage.wiped then none else old key

theorem slotValue_ne_nil (value : U256) : MptNode.slotValue value ≠ some [] := by
  rw [MptNode.slotValue]
  split_ifs with hzero
  · simp
  · have hlength := Rlp.toBigEndian_length_le value.val 32 value.isLt
    intro h
    exact (Rlp.encodeBytes_isItem _ (by omega)).ne_nil (Option.some.inj h)

/-- The changed slots of an account set the slots of its map. -/
theorem Builds.putSlots {old : B256 → Option Bytes} {trie : MptNode}
    (h : Builds (onWords old) trie) (slots : List (B256 × U256))
    (hnodup : (slots.map Prod.fst).Nodup) :
    ∃ trie', slots.foldlM MptNode.putSlot trie = some trie' ∧
      Builds (onWords (newSlots ⟨false, slots⟩ old)) trie' := by
  induction slots generalizing old trie with
  | nil => exact ⟨trie, rfl, h⟩
  | cons slot slots ih =>
      rw [List.map_cons, List.nodup_cons] at hnodup
      obtain ⟨next, hput, hnext⟩ := h.put slot.1.length_eq (slotValue_ne_nil slot.2)
      rw [update_onWords] at hnext
      obtain ⟨final, hrest, hfinal⟩ := ih hnext hnodup.2
      refine ⟨final, ?_, ?_⟩
      · rw [List.foldlM_cons, MptNode.putSlot, hput]
        exact hrest
      · have hslots : newSlots ⟨false, slots⟩
            (Function.update old slot.1 (MptNode.slotValue slot.2)) =
              newSlots ⟨false, slot :: slots⟩ old := by
          funext key
          by_cases hkey : key = slot.1
          · have hself : (slot :: slots).lookup slot.1 = some slot.2 := List.lookup_cons_self
            simp only [newSlots, hkey, lookup_eq_none_of_not_mem hnodup.1, hself,
              Function.update_self]
            rfl
          · simp [newSlots, lookup_cons_of_ne hkey, hkey]
        rwa [← hslots]

section

variable (keccak : Bytes → B256)

/-- A state in which every trie is built for a map: the state trie for the accounts, and each
storage trie that is present for the slots of its account, whose root the account has. -/
structure FullState (state : EthereumState) (accounts : B256 → Option TrieAccount)
    (slots : B256 → B256 → Option Bytes) : Prop where
  trie : Builds (accountContents accounts) state.stateTrie
  storage : ∀ address trie, state.storageTries address = some trie →
    Builds (onWords (slots address)) trie
  root : ∀ address account, accounts address = some account →
    IsRoot keccak (onWords (slots address)) account.storageRoot
  absent : ∀ address, accounts address = none → slots address = fun _ => none
  nonzero : ∀ address account, accounts address = some account →
    account.storageRoot ≠ B256.zero

/-- Slots are changed one by one only where the old ones are present. -/
def SlotsPresent (state : EthereumState) (slots : B256 → B256 → Option Bytes)
    (post : HashedPostState) : Prop :=
  ∀ address, (post.storageOf address).storage ≠ [] → (post.storageOf address).wiped = false →
    state.storageTries address ≠ none ∨ slots address = fun _ => none

/-- What the changes make of an account. -/
def AccountAfter (post : HashedPostState) (slots : B256 → B256 → Option Bytes)
    (changes : List (B256 × Option Account)) (address : B256) (old new : Option TrieAccount) :
    Prop :=
  match changes.lookup address with
  | none => new = old
  | some none => new = none
  | some (some account) => ∃ root,
      IsRoot keccak (onWords (newSlots (post.storageOf address) (slots address))) root ∧
        new = some ⟨account.nonce, account.balance, root, account.getBytecodeHash⟩

/-- A state as far as one account goes. -/
structure AccountReady (state : EthereumState) (accounts : B256 → Option TrieAccount)
    (slots : B256 → B256 → Option Bytes) (post : HashedPostState) (address : B256) : Prop where
  storage : ∀ trie, state.storageTries address = some trie → Builds (onWords (slots address)) trie
  root : ∀ account, accounts address = some account →
    IsRoot keccak (onWords (slots address)) account.storageRoot ∧
      account.storageRoot ≠ B256.zero
  absent : accounts address = none → slots address = fun _ => none
  present : (post.storageOf address).storage ≠ [] → (post.storageOf address).wiped = false →
    state.storageTries address ≠ none ∨ slots address = fun _ => none

end

section

variable {keccak : Bytes → B256} {state : EthereumState} {accounts : B256 → Option TrieAccount}
  {slots : B256 → B256 → Option Bytes} {post : HashedPostState} {address : B256}

theorem getRlp_accounts (h : Builds (accountContents accounts) state.stateTrie) (address : B256) :
    state.stateTrie.getRlp address.bytes = .ok (accounts address) := by
  rw [MptNode.getRlp, h.get, accountContents, onWords_bytes]
  cases accounts address with
  | none => rfl
  | some account => simp only [Option.map_some, TrieAccount.decode_encode]

namespace AccountReady

variable (h : AccountReady keccak state accounts slots post address)

include h

/-- An account without slots has the empty root. -/
theorem root_of_empty (hempty : slots address = fun _ => none) {account : TrieAccount}
    (haccount : accounts address = some account) : account.storageRoot = EMPTY_ROOT := by
  have hroot := (h.root account haccount).1
  rw [hempty, onWords_none] at hroot
  exact hroot.unique (IsRoot.empty keccak)

/-- The recovered storage trie holds the slots of the account, or it is missing and stands for
them. -/
theorem recoverStorage (htrie : Builds (accountContents accounts) state.stateTrie) :
    ∃ trie, state.recoverStorage address = .ok trie ∧
      (Builds (onWords (slots address)) trie ∨
        (state.storageTries address = none ∧ slots address ≠ (fun _ => none) ∧
          IsRoot keccak (onWords (slots address)) (trie.hash keccak))) := by
  have hread := getRlp_accounts htrie address
  rw [EthereumState.recoverStorage, hread]
  by_cases hempty : slots address = fun _ => none
  · -- Without slots there is nothing to recover.
    have hnull : Builds (onWords (slots address)) .Null := by
      rw [hempty, onWords_none]
      exact Builds.empty
    have hstored : state.storageTrie address = .Null := by
      rw [storageTrie]
      cases hs : state.storageTries address with
      | none => rfl
      | some trie => exact (h.storage trie hs).unique hnull
    rw [hstored]
    refine ⟨.Null, ?_, .inl hnull⟩
    cases haccount : accounts address with
    | none => rfl
    | some account => simp [MptNode.isEmpty, h.root_of_empty hempty haccount]
  · cases hs : state.storageTries address with
    | some trie =>
        have hbuilds := h.storage trie hs
        have hne : trie.isEmpty = false := by
          cases trie with
          | Null =>
              have hnone := hbuilds.contents_eq Builds.empty
              rw [← onWords_none] at hnone
              exact (hempty (onWords_injective hnone)).elim
          | Branch | Leaf | Extension | Digest => rfl
        have hstored : state.storageTrie address = trie := by
          rw [storageTrie, hs]
          rfl
        rw [hstored, hne]
        exact ⟨trie, rfl, .inl hbuilds⟩
    | none =>
        have hstored : state.storageTrie address = .Null := by
          rw [storageTrie, hs]
          rfl
        rw [hstored]
        cases haccount : accounts address with
        | none => exact (hempty (h.absent haccount)).elim
        | some account =>
            obtain ⟨hroot, hnonzero⟩ := h.root account haccount
            by_cases hmarker : account.storageRoot = EMPTY_ROOT
            · refine ⟨.Null, by simp [MptNode.isEmpty, hmarker], .inr ⟨rfl, hempty, ?_⟩⟩
              rw [hmarker] at hroot
              exact hroot
            · refine ⟨.Digest account.storageRoot, by simp [MptNode.isEmpty, hmarker, hnonzero],
                .inr ⟨rfl, hempty, hroot⟩⟩

/-- What is written for an account: the root of its new slots. -/
theorem accountWrite (htrie : Builds (accountContents accounts) state.stateTrie)
    (hnodup : ((post.storageOf address).storage.map Prod.fst).Nodup) (account : Account) :
    ∃ trie root, state.accountWrite keccak post (address, some account) = some (some trie,
        some (TrieAccount.encode
          ⟨account.nonce, account.balance, root, account.getBytecodeHash⟩)) ∧
      IsRoot keccak (onWords (newSlots (post.storageOf address) (slots address))) root := by
  -- Whatever the slots are applied to, the trie they leave gives the root.
  have finish : ∀ {opened : MptNode} {old : B256 → Option Bytes},
      state.openStorage address (post.storageOf address) = .ok opened →
      Builds (onWords old) opened →
      newSlots ⟨false, (post.storageOf address).storage⟩ old =
        newSlots (post.storageOf address) (slots address) →
      ∃ trie root, state.accountWrite keccak post (address, some account) = some (some trie,
          some (TrieAccount.encode
            ⟨account.nonce, account.balance, root, account.getBytecodeHash⟩)) ∧
        IsRoot keccak (onWords (newSlots (post.storageOf address) (slots address))) root := by
    intro opened old hopen hbuilds hslots
    obtain ⟨trie, hput, hbuilds⟩ := hbuilds.putSlots _ hnodup
    refine ⟨trie, trie.hash keccak, ?_, trie, hslots ▸ hbuilds, rfl⟩
    simp only [EthereumState.accountWrite, hopen, Except.toOption, Option.bind_some, hput,
      Option.map_some]
  obtain ⟨recovered, hrecover, hcase⟩ := h.recoverStorage htrie
  have hopen : state.openStorage address (post.storageOf address) =
      .ok (if (post.storageOf address).wiped then .Null else recovered) := by
    rw [openStorage, hrecover]
  cases hwiped : (post.storageOf address).wiped with
  | true =>
      rw [hwiped] at hopen
      refine finish hopen (onWords_none ▸ Builds.empty) ?_
      funext key
      simp [newSlots, hwiped]
  | false =>
      rw [hwiped] at hopen
      rcases hcase with hbuilds | ⟨hmissing, hsome, hroot⟩
      · refine finish hopen hbuilds ?_
        funext key
        simp [newSlots, hwiped]
      · -- The slots are not there, so none of them is changed.
        have hnil : (post.storageOf address).storage = [] := by
          by_contra hne
          rcases h.present hne hwiped with hthere | hempty
          · exact hthere hmissing
          · exact hsome hempty
        have hslots : newSlots (post.storageOf address) (slots address) = slots address := by
          funext key
          simp [newSlots, hnil, hwiped]
        refine ⟨recovered, recovered.hash keccak, ?_, ?_⟩
        · simp [EthereumState.accountWrite, hopen, Except.toOption, hnil]
        · rw [hslots]
          exact hroot

end AccountReady

/-- One changed account. -/
theorem putAccount_full {change : B256 × Option Account}
    (htrie : Builds (accountContents accounts) state.stateTrie)
    (hready : AccountReady keccak state accounts slots post change.1)
    (hnodup : ((post.storageOf change.1).storage.map Prod.fst).Nodup) :
    ∃ state' new, state.putAccount keccak post change = some state' ∧
      Builds (accountContents (Function.update accounts change.1 new)) state'.stateTrie ∧
      AccountAfter keccak post slots [change] change.1 (accounts change.1) new ∧
      ∀ other, other ≠ change.1 → state'.storageTries other = state.storageTries other := by
  -- The write of an entry is the write of an account.
  have finish : ∀ {storage : Option MptNode} {new : Option TrieAccount},
      state.accountWrite keccak post change = some (storage, new.map TrieAccount.encode) →
      ∃ state', state.putAccount keccak post change = some state' ∧
        Builds (accountContents (Function.update accounts change.1 new)) state'.stateTrie ∧
        ∀ other, other ≠ change.1 → state'.storageTries other = state.storageTries other := by
    intro storage new hwrite
    have hvalue : new.map TrieAccount.encode ≠ some [] := by
      cases new with
      | none => simp
      | some account => simpa using account.encode_ne_nil
    obtain ⟨trie, hput, hbuilds⟩ := htrie.put change.1.length_eq hvalue
    refine ⟨⟨trie, storeTrie state.storageTries change.1 storage⟩, ?_, ?_,
      fun other ho => storeTrie_of_ne ho _⟩
    · simp only [putAccount, hwrite, Option.bind_some, hput, Option.map_some]
    · rwa [update_accountContents] at hbuilds
  obtain ⟨address, account⟩ := change
  have hself : ∀ x : Option Account, [(address, x)].lookup address = some x :=
    fun _ => List.lookup_cons_self
  cases account with
  | none =>
      obtain ⟨state', hput, hbuilds, hframe⟩ := @finish none none rfl
      refine ⟨state', none, hput, hbuilds, ?_, hframe⟩
      simp only [AccountAfter, hself]
  | some account =>
      obtain ⟨trie, root, hwrite, hroot⟩ := hready.accountWrite htrie hnodup account
      obtain ⟨state', hput, hbuilds, hframe⟩ := @finish (some trie)
        (some ⟨account.nonce, account.balance, root, account.getBytecodeHash⟩) hwrite
      refine ⟨state', _, hput, hbuilds, ?_, hframe⟩
      simp only [AccountAfter, hself]
      exact ⟨root, hroot, rfl⟩

/-- All changed accounts, one after the other. -/
theorem putAccounts_full (changes : List (B256 × Option Account))
    (htrie : Builds (accountContents accounts) state.stateTrie)
    (hready : ∀ change ∈ changes, AccountReady keccak state accounts slots post change.1)
    (hnodup : (changes.map Prod.fst).Nodup)
    (hslots : ∀ address, ((post.storageOf address).storage.map Prod.fst).Nodup) :
    ∃ (final : EthereumState) (after : B256 → Option TrieAccount),
      changes.foldlM (putAccount keccak post) state = some final ∧
      Builds (accountContents after) final.stateTrie ∧
      ∀ address, AccountAfter keccak post slots changes address (accounts address)
        (after address) := by
  induction changes generalizing state accounts with
  | nil => exact ⟨state, accounts, rfl, htrie, fun _ => rfl⟩
  | cons change changes ih =>
      rw [List.map_cons, List.nodup_cons] at hnodup
      obtain ⟨next, new, hput, hnext, hnew, hframe⟩ :=
        putAccount_full htrie (hready change (.head _)) (hslots change.1)
      -- The accounts that are still to come are as they were.
      have hrest : ∀ other ∈ changes, AccountReady keccak next
          (Function.update accounts change.1 new) slots post other.1 := by
        intro other ho
        have hne : other.1 ≠ change.1 := fun heq =>
          hnodup.1 (heq ▸ List.mem_map_of_mem ho)
        have hold := hready other (.tail _ ho)
        refine ⟨?_, ?_, ?_, ?_⟩
        · rw [hframe _ hne]
          exact hold.storage
        · rw [Function.update_of_ne hne]
          exact hold.root
        · rw [Function.update_of_ne hne]
          exact hold.absent
        · rw [hframe _ hne]
          exact hold.present
      obtain ⟨final, after, hrun, hbuilds, hafter⟩ := ih hnext hrest hnodup.2
      refine ⟨final, after, ?_, hbuilds, fun address => ?_⟩
      · rw [List.foldlM_cons, hput]
        exact hrun
      · have hthis := hafter address
        by_cases ha : address = change.1
        · subst ha
          rw [Function.update_self, AccountAfter, lookup_eq_none_of_not_mem hnodup.1] at hthis
          rw [hthis]
          have hsingle : (change :: changes).lookup change.1 = [change].lookup change.1 := by
            rw [List.lookup_cons_self, List.lookup_cons_self]
          rwa [AccountAfter, hsingle]
        · rw [Function.update_of_ne ha] at hthis
          rwa [AccountAfter, lookup_cons_of_ne ha]

end

/-- The update of a state whose tries are built for maps does not panic, in whatever order the
accounts and slots come, and the new state root is the root of the changed account map. -/
theorem update_computes_root (keccak : Bytes → B256) (state : EthereumState)
    (accounts : B256 → Option TrieAccount) (slots : B256 → B256 → Option Bytes)
    (hstate : FullState keccak state accounts slots) (post : HashedPostState)
    (haccounts : (post.accounts.map Prod.fst).Nodup)
    (hslots : ∀ address, ((post.storageOf address).storage.map Prod.fst).Nodup)
    (hpresent : SlotsPresent state slots post) :
    ∃ (final : EthereumState) (after : B256 → Option TrieAccount),
      state.update keccak post = .ok final ∧
      IsRoot keccak (accountContents after) (final.stateRoot keccak) ∧
      ∀ address, AccountAfter keccak post slots post.accounts address (accounts address)
        (after address) := by
  have hready : ∀ change ∈ post.accounts,
      AccountReady keccak state accounts slots post change.1 := by
    intro change _
    exact ⟨hstate.storage _, fun account ha => ⟨hstate.root _ _ ha, hstate.nonzero _ _ ha⟩,
      hstate.absent _, hpresent _⟩
  obtain ⟨final, after, hrun, hbuilds, hafter⟩ :=
    putAccounts_full post.accounts hstate.trie hready haccounts hslots
  refine ⟨final, after, ?_, ⟨_, hbuilds, rfl⟩, hafter⟩
  rw [update, updateAccounts_eq, hrun]

section Sample

/-- A map with one key. -/
theorem builds_single (key : B256) {value : Bytes} (h : value ≠ []) :
    Builds (Function.update (fun _ => none) key.bytes (some value))
      (.Leaf (toEncodedPath (toNibs key.bytes) true) value) := by
  have hvalue : (some value : Option Bytes) ≠ some [] := by simpa using h
  obtain ⟨node, hput, hbuilds⟩ := Builds.empty.put key.length_eq hvalue
  cases hput
  exact hbuilds

theorem builds_slot (key : B256) {value : Bytes} (h : value ≠ []) :
    Builds (onWords (Function.update (fun _ => none) key (some value)))
      (.Leaf (toEncodedPath (toNibs key.bytes) true) value) := by
  rw [← update_onWords, onWords_none]
  exact builds_single key h

/-- The slot is cleared and another one is set, and an account that is not there is removed. -/
def samplePost : HashedPostState :=
  ⟨[(B256.zero, some ⟨2, 5, none⟩), (.ofNat 3, none)],
    [(B256.zero, ⟨false, [(B256.zero, 0), (.ofNat 1, 9)]⟩)]⟩

theorem slotState_full : FullState slotKeccak slotState
    (Function.update (fun _ => none) B256.zero (some slotAccount))
    (Function.update (fun _ _ => none) B256.zero
      (Function.update (fun _ => none) B256.zero (some [1]))) where
  trie := by
    have hnone : accountContents (fun _ => none) = fun _ => none := onWords_none
    rw [← update_accountContents, hnone]
    exact builds_single B256.zero slotAccount.encode_ne_nil
  storage address trie h := by
    by_cases ha : address = B256.zero
    · subst ha
      cases h
      rw [Function.update_self]
      exact builds_slot B256.zero (by simp)
    · simp [slotState, ha] at h
  root address account h := by
    by_cases ha : address = B256.zero
    · subst ha
      rw [Function.update_self] at h ⊢
      cases h
      exact ⟨_, builds_slot B256.zero (by simp), by decide +kernel⟩
    · simp [ha] at h
  absent address h := by
    by_cases ha : address = B256.zero
    · subst ha
      simp at h
    · rw [Function.update_of_ne ha]
  nonzero address account h := by
    by_cases ha : address = B256.zero
    · subst ha
      rw [Function.update_self] at h
      cases h
      decide +kernel
    · simp [ha] at h

theorem update_computes_root_sample :
    ∃ (final : EthereumState) (after : B256 → Option TrieAccount) (root : B256),
      slotState.update slotKeccak samplePost = .ok final ∧
      IsRoot slotKeccak (accountContents after) (final.stateRoot slotKeccak) ∧
      after B256.zero = some ⟨2, 5, root, KECCAK_EMPTY⟩ ∧ after (.ofNat 3) = none := by
  have hstorage : ∀ address, (samplePost.storageOf address).storage = [] ∨
      (samplePost.storageOf address).storage = [(B256.zero, 0), (.ofNat 1, 9)] ∧
        address = B256.zero := by
    intro address
    by_cases ha : address = B256.zero
    · exact .inr ⟨by rw [ha]; rfl, ha⟩
    · have hother : samplePost.storages.lookup address = none :=
        lookup_eq_none_of_not_mem (by simpa [samplePost] using ha)
      exact .inl (by rw [HashedPostState.storageOf, hother]; rfl)
  obtain ⟨final, after, hrun, hroot, hafter⟩ := update_computes_root slotKeccak
    slotState _ _ slotState_full samplePost (by decide +kernel)
    (fun address => by
      rcases hstorage address with h | ⟨h, _⟩
      · simp [h]
      · rw [h]
        decide +kernel)
    (fun address hne _ => by
      rcases hstorage address with h | ⟨_, rfl⟩
      · exact (hne h).elim
      · exact .inl (by simp [slotState]))
  obtain ⟨root, _, hzero⟩ := hafter B256.zero
  exact ⟨final, after, root, hrun, hroot, hzero, hafter (.ofNat 3)⟩

namespace MptNode

mutual

/-- No digest occurs. -/
def isResolved : MptNode → Bool
  | .Null => true
  | .Leaf _ _ => true
  | .Extension _ child => child.isResolved
  | .Branch children => decide (∀ i, isResolvedChild (children i) = true)
  | .Digest _ => false

def isResolvedChild : Option MptNode → Bool
  | none => true
  | some child => child.isResolved

end

end MptNode

/-- A branch with a single child, which no sequence of calls builds. -/
def lonelyState : EthereumState :=
  ⟨.Branch (Function.update (fun _ => none) 0
    (some (.Leaf (toEncodedPath (List.replicate 63 0) true) (freshAccount 1).encode))),
    fun _ => none⟩

theorem update_panics_on_lonely_child :
    lonelyState.stateTrie.isResolved = true ∧
      (∀ address, lonelyState.storageTries address = none) ∧
      lonelyState.stateTrie.getRlp B256.zero.bytes = .ok (some (freshAccount 1)) ∧
      (freshAccount 1).storageRoot = EMPTY_ROOT ∧
      ∀ keccak, lonelyState.update keccak ⟨[(B256.zero, none)], []⟩ = .error .panic := by
  refine ⟨by decide +kernel, fun _ => rfl, by decide +kernel, rfl, fun keccak => ?_⟩
  have hput : lonelyState.stateTrie.put B256.zero.bytes none = none :=
    Option.isNone_iff_eq_none.mp (by decide +kernel)
  have hnone : [((B256.zero, none) : B256 × Option Account)].foldlM
      (putAccount keccak ⟨[(B256.zero, none)], []⟩) lonelyState = none := by
    simp [putAccount, accountWrite, hput]
  rw [update, updateAccounts_eq, hnone]

end Sample

end FluentStf.Mpt
