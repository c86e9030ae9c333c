import FluentStf.Mpt.Refinement
import FluentStf.Mpt.State
import FluentStf.Radix.Put

/-! The update of a state as a sequence of writes. A changed slot and a changed account each
write one key of a trie; what is written for an account depends on its own storage trie and on
what the state trie holds at its address. -/
namespace FluentStf.Mpt

open Radix

namespace MptNode

/-- Set the value of a key or remove the key, if the trie can be followed to it. -/
def put (node : MptNode) (key : Bytes) (value : Option Bytes) : Option MptNode :=
  match (match value with
    | some value => node.insertRlp key value
    | none => node.delete key) with
  | (.ok _, node) => some node
  | (.error _, _) => none

/-- Writing a node writes the trie it represents. -/
theorem put_toNode {w : NibbleTrie} (hw : w.Canonical) (key : Bytes) (value : Option Bytes) :
    (toNode w).put key value = (w.put (toNibs key) value).map toNode := by
  cases value with
  | none =>
      cases hput : w.put (toNibs key) none with
      | none =>
          obtain ⟨e, he⟩ := deleteInternal_stops hput
          simp only [put, delete, he, Option.map_none]
      | some w' => simp only [put, delete, deleteInternal_toNode hw hput, Option.map_some]
  | some value =>
      cases hput : w.put (toNibs key) (some value) with
      | none =>
          obtain ⟨e, he⟩ := @insertInternal_stops w (toNibs key) value hput
          simp only [put, insertRlp, he, Option.map_none]
      | some w' => simp only [put, insertRlp, insertInternal_toNode hw hput, Option.map_some]

/-- What a slot is set to, nothing for a zero. -/
def slotValue (value : U256) : Option Bytes :=
  if value = 0 then none else some (Rlp.encodeNat value.val)

def putSlot (trie : MptNode) (slot : B256 × U256) : Option MptNode :=
  trie.put slot.1.bytes (slotValue slot.2)

theorem putSlot_eq (trie : MptNode) (slot : B256 × U256) :
    trie.putSlot slot = match trie.applySlot slot with
      | (.ok _, trie) => some trie
      | (.error _, _) => none := by
  rw [putSlot, slotValue, applySlot]
  split_ifs <;> rfl

/-- The changed slots are written one after the other. -/
theorem applySlots_eq (trie : MptNode) (slots : List (B256 × U256)) :
    trie.applySlots slots = match slots.foldlM putSlot trie with
      | some trie => .ok trie
      | none => .error .panic := by
  induction slots generalizing trie with
  | nil => rfl
  | cons slot slots ih =>
      rw [applySlots, List.foldlM_cons, putSlot_eq]
      cases trie.applySlot slot with
      | mk result trie =>
          cases result with
          | error e => rfl
          | ok b => exact ih trie

theorem put_insertRlp (node : MptNode) (key value : Bytes) :
    node.put key (some value) = match node.insertRlp key value with
      | (.ok _, node) => some node
      | (.error _, _) => none := rfl

theorem put_delete (node : MptNode) (key : Bytes) :
    node.put key none = match node.delete key with
      | (.ok _, node) => some node
      | (.error _, _) => none := rfl

end MptNode

namespace EthereumState

section

variable (keccak : Bytes → B256) (post : HashedPostState)

/-- What a changed account writes: its storage trie if it stays, and its entry of the state
trie. -/
def accountWrite (state : EthereumState) :
    B256 × Option Account → Option (Option MptNode × Option Bytes)
  | (_, none) => some (none, none)
  | (address, some account) =>
      let storage := post.storageOf address
      (state.openStorage address storage).toOption.bind fun trie =>
        (storage.storage.foldlM MptNode.putSlot trie).map fun trie =>
          (some trie, some (TrieAccount.encode
            ⟨account.nonce, account.balance, trie.hash keccak, account.getBytecodeHash⟩))

/-- The storage tries with the one of an account replaced, if there is a new one. -/
def storeTrie (tries : B256 → Option MptNode) (address : B256) :
    Option MptNode → B256 → Option MptNode
  | none => tries
  | some trie => Function.update tries address (some trie)

/-- A changed account writes one key of the state trie. -/
def putAccount (state : EthereumState) (change : B256 × Option Account) : Option EthereumState :=
  (state.accountWrite keccak post change).bind fun write =>
    (state.stateTrie.put change.1.bytes write.2).map fun trie =>
      ⟨trie, storeTrie state.storageTries change.1 write.1⟩

end

section

variable {keccak : Bytes → B256} {post : HashedPostState}

theorem openStorage_error {state : EthereumState} {address : B256} {storage : HashedStorage}
    {e : Fault} (h : state.openStorage address storage = .error e) : e = .panic := by
  rw [openStorage, recoverStorage] at h
  split at h
  · next hrecover =>
      split at hrecover
      · split at hrecover
        · split_ifs at hrecover
        · cases hrecover
          cases h
          rfl
        · cases hrecover
      · cases hrecover
  · cases h

theorem updateAccount_eq (state : EthereumState) (change : B256 × Option Account) :
    state.updateAccount keccak post change = match state.putAccount keccak post change with
      | some state => .ok state
      | none => .error .panic := by
  obtain ⟨address, account⟩ := change
  cases account with
  | none =>
      simp only [updateAccount, putAccount, accountWrite, Option.bind_some, MptNode.put_delete]
      cases state.stateTrie.delete address.bytes with
      | mk result trie => cases result <;> rfl
  | some account =>
      simp only [updateAccount, putAccount, accountWrite]
      cases hopen : state.openStorage address (post.storageOf address) with
      | error e =>
          cases openStorage_error hopen
          rfl
      | ok trie =>
          simp only [MptNode.applySlots_eq, Except.toOption, Option.bind_some]
          cases (post.storageOf address).storage.foldlM MptNode.putSlot trie with
          | none => rfl
          | some trie =>
              simp only [Option.map_some, Option.bind_some, MptNode.put_insertRlp]
              split <;> simp_all [storeTrie]

/-- The changed accounts are written one after the other. -/
theorem updateAccounts_eq (state : EthereumState) (accounts : List (B256 × Option Account)) :
    state.updateAccounts keccak post accounts =
      match accounts.foldlM (putAccount keccak post) state with
      | some state => .ok state
      | none => .error .panic := by
  induction accounts generalizing state with
  | nil => rfl
  | cons change accounts ih =>
      rw [updateAccounts, List.foldlM_cons, updateAccount_eq]
      cases state.putAccount keccak post change with
      | none => rfl
      | some state => exact ih state

/-- What is written for an account depends on its storage trie and its entry only. -/
theorem accountWrite_congr {state state' : EthereumState} {change : B256 × Option Account}
    (hstorage : state'.storageTries change.1 = state.storageTries change.1)
    (hentry : state'.stateTrie.getRlp change.1.bytes = state.stateTrie.getRlp change.1.bytes) :
    state'.accountWrite keccak post change = state.accountWrite keccak post change := by
  obtain ⟨address, account⟩ := change
  cases account with
  | none => rfl
  | some account =>
      have htrie : state'.storageTrie address = state.storageTrie address :=
        congrArg (fun trie => Option.getD trie MptNode.Null) hstorage
      simp only [accountWrite, openStorage, recoverStorage, htrie, hentry]

theorem storeTrie_of_ne {tries : B256 → Option MptNode} {address other : B256}
    (h : other ≠ address) (trie : Option MptNode) :
    storeTrie tries address trie other = tries other := by
  cases trie with
  | none => rfl
  | some trie => exact Function.update_of_ne h _ _

theorem storeTrie_comm (tries : B256 → Option MptNode) {a b : B256} (h : a ≠ b)
    (s t : Option MptNode) :
    storeTrie (storeTrie tries a s) b t = storeTrie (storeTrie tries b t) a s := by
  cases s with
  | none => rfl
  | some s =>
      cases t with
      | none => rfl
      | some t => exact Function.update_comm h _ _ _

end

end EthereumState

end FluentStf.Mpt
