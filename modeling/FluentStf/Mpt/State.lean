import FluentStf.Mpt.Operations
import FluentStf.Rlp.Decoding

/-! The state of all accounts as a trie of accounts and a trie of slots for each
of them, and its update by the changes of a block. Maps that are iterated over
are lists, in the order of the iteration. -/
namespace FluentStf.Mpt

abbrev U256 := Fin (2 ^ 256)

instance U256.neZero : NeZero (2 ^ 256) := ⟨Nat.two_pow_pos 256 |>.ne'⟩

/-- An account as stored in the state trie. -/
structure TrieAccount where
  nonce : UInt64
  balance : U256
  storageRoot : B256
  codeHash : B256
deriving DecidableEq

namespace TrieAccount

def encode (account : TrieAccount) : Bytes :=
  Rlp.encodeList [Rlp.encodeNat account.nonce.toNat, Rlp.encodeNat account.balance.val,
    Rlp.encodeBytes account.storageRoot.bytes, Rlp.encodeBytes account.codeHash.bytes]

/-- Read a word of exactly 32 bytes. -/
def decodeWord (buf : Bytes) : Except Rlp.DecodeError (B256 × Bytes) :=
  match Rlp.decodeBytes buf with
  | .error e => .error e
  | .ok (bytes, rest) =>
      if h : bytes.length = 32 then .ok (⟨bytes, h⟩, rest) else .error .UnexpectedLength

/-- The fields of an account, one after the other. -/
def decodeFields (buf : Bytes) : Except Rlp.DecodeError (TrieAccount × Bytes) := do
  let (nonce, buf) ← Rlp.decodeNat 8 buf
  let (balance, buf) ← Rlp.decodeNat 32 buf
  let (storageRoot, buf) ← decodeWord buf
  let (codeHash, buf) ← decodeWord buf
  return (⟨UInt64.ofNat nonce, Fin.ofNat (2 ^ 256) balance, storageRoot, codeHash⟩, buf)

/-- The fields must fill the list exactly. Bytes after the list are not looked at. -/
def decode (buf : Bytes) : Except Rlp.DecodeError TrieAccount := do
  let (header, buf) ← Rlp.Header.decode buf
  if header.list then
    let (account, rest) ← decodeFields buf
    if buf.length - rest.length = header.payloadLength then return account
    else throw .ListLengthMismatch
  else throw .UnexpectedString

theorem decodeWord_encodeBytes (word : B256) (rest : Bytes) :
    decodeWord (Rlp.encodeBytes word.bytes ++ rest) = .ok (word, rest) := by
  have hlength := word.length_eq
  rw [decodeWord, Rlp.decodeBytes_encodeBytes (by omega)]
  simp only [hlength, dite_true]

theorem decodeFields_items (account : TrieAccount) (rest : Bytes) :
    decodeFields (Rlp.encodeNat account.nonce.toNat ++ (Rlp.encodeNat account.balance.val ++
      (Rlp.encodeBytes account.storageRoot.bytes ++
        (Rlp.encodeBytes account.codeHash.bytes ++ rest)))) = .ok (account, rest) := by
  have hnonce : account.nonce.toNat < 256 ^ 8 := account.nonce.toNat_lt
  have hbalance : account.balance.val < 256 ^ 32 := account.balance.isLt
  unfold decodeFields
  rw [Rlp.decodeNat_encodeNat (by omega) hnonce]
  simp only [bind, Except.bind]
  rw [Rlp.decodeNat_encodeNat (by omega) hbalance]
  simp only [decodeWord_encodeBytes, UInt64.ofNat_toNat, Fin.ofNat_val_eq_self]
  rfl

theorem payload_length_le (account : TrieAccount) :
    [Rlp.encodeNat account.nonce.toNat, Rlp.encodeNat account.balance.val,
      Rlp.encodeBytes account.storageRoot.bytes,
      Rlp.encodeBytes account.codeHash.bytes].flatten.length ≤ 164 := by
  have hsize : ∀ bytes : Bytes, bytes.length ≤ 32 → (Rlp.encodeBytes bytes).length ≤ 41 := by
    intro bytes h
    have := Rlp.encodeBytes_length_le bytes (by omega)
    omega
  have h1 := hsize _ (Rlp.toBigEndian_length_le account.nonce.toNat 32
    (lt_of_lt_of_le account.nonce.toNat_lt (by norm_num)))
  have h2 := hsize _ (Rlp.toBigEndian_length_le account.balance.val 32 account.balance.isLt)
  have h3 := hsize _ account.storageRoot.length_eq.le
  have h4 := hsize _ account.codeHash.length_eq.le
  simp only [List.flatten_cons, List.flatten_nil, List.length_append, List.length_nil,
    Rlp.encodeNat]
  omega

theorem encode_length_lt (account : TrieAccount) : account.encode.length < 2 ^ 63 := by
  have hpayload := account.payload_length_le
  have hheader := Rlp.Header.encode_length_le ⟨true, _⟩ (lt_of_le_of_lt hpayload (by norm_num))
  rw [encode, Rlp.encodeList, List.length_append]
  omega

/-- Accounts are read back from their encoding. -/
theorem decode_encode (account : TrieAccount) : decode account.encode = .ok account := by
  unfold decode encode Rlp.encodeList
  rw [Rlp.Header.decode_list _ le_rfl]
  · have hfields := decodeFields_items account []
    simp only [bind, Except.bind, if_true, List.flatten_cons, List.flatten_nil, hfields]
    rw [if_pos (by simp)]
    rfl
  · exact lt_of_le_of_lt account.payload_length_le (by norm_num)

theorem encode_ne_nil (account : TrieAccount) : account.encode ≠ [] := by
  intro h
  have := decode_encode account
  rw [h] at this
  cases this

end TrieAccount

/-- Hash of the empty byte string. -/
def KECCAK_EMPTY : B256 :=
  .ofNat 0xc5d2460186f7233c927e7db2dcc703c0e500b653ca82273b7bfad8045d85a470

/-- An account after a block. -/
structure Account where
  nonce : UInt64
  balance : U256
  bytecodeHash : Option B256

def Account.getBytecodeHash (account : Account) : B256 :=
  account.bytecodeHash.getD KECCAK_EMPTY

/-- The changed slots of an account, a zero value for a removed one. -/
structure HashedStorage where
  wiped : Bool
  storage : List (B256 × U256)

/-- The changes of a block: accounts that are changed or removed, and slots. -/
structure HashedPostState where
  accounts : List (B256 × Option Account)
  storages : List (B256 × HashedStorage)

/-- The state trie over hashed addresses, and the storage tries that are there. -/
structure EthereumState where
  stateTrie : MptNode
  storageTries : B256 → Option MptNode

namespace MptNode

def getRlp (node : MptNode) (key : Bytes) : Except Fault (Option TrieAccount) :=
  match node.get key with
  | .error e => .error e
  | .ok none => .ok none
  | .ok (some bytes) => match TrieAccount.decode bytes with
    | .error _ => .error (.error .Rlp)
    | .ok account => .ok (some account)

/-- Insertion of an already encoded value, without the check of `insert`. -/
def insertRlp (node : MptNode) (key encoded : Bytes) : Outcome :=
  node.insertInternal (toNibs key) encoded

/-- One changed slot. -/
def applySlot (trie : MptNode) (slot : B256 × U256) : Outcome :=
  if slot.2 = 0 then trie.delete slot.1.bytes
  else trie.insertRlp slot.1.bytes (Rlp.encodeNat slot.2.val)

/-- All changed slots. The first error makes the process panic. -/
def applySlots : MptNode → List (B256 × U256) → Except Fault MptNode
  | trie, [] => .ok trie
  | trie, slot :: slots => match trie.applySlot slot with
    | (.ok _, trie) => trie.applySlots slots
    | (.error _, _) => .error .panic

end MptNode

def HashedPostState.storageOf (post : HashedPostState) (address : B256) : HashedStorage :=
  (post.storages.lookup address).getD ⟨false, []⟩

namespace EthereumState

/-- The storage trie of an account, empty if there is none. -/
def storageTrie (state : EthereumState) (address : B256) : MptNode :=
  (state.storageTries address).getD .Null

/-- An empty storage trie is replaced by the root that the account has in the
state trie, if any. Errors of that lookup are ignored, but not its panics. -/
def recoverStorage (state : EthereumState) (address : B256) : Except Fault MptNode :=
  if (state.storageTrie address).isEmpty then
    match state.stateTrie.getRlp address.bytes with
    | .ok (some existing) =>
        if existing.storageRoot ≠ EMPTY_ROOT ∧ existing.storageRoot ≠ B256.zero then
          .ok (.Digest existing.storageRoot)
        else .ok (state.storageTrie address)
    | .error .panic => .error .panic
    | _ => .ok (state.storageTrie address)
  else .ok (state.storageTrie address)

/-- The storage trie that the changed slots are applied to. -/
def openStorage (state : EthereumState) (address : B256) (storage : HashedStorage) :
    Except Fault MptNode :=
  match state.recoverStorage address with
  | .error e => .error e
  | .ok trie => .ok (if storage.wiped then .Null else trie)

section

variable (keccak : Bytes → B256)

/-- One changed account. -/
def updateAccount (post : HashedPostState) (state : EthereumState) :
    B256 × Option Account → Except Fault EthereumState
  | (address, none) => match state.stateTrie.delete address.bytes with
    | (.ok _, trie) => .ok { state with stateTrie := trie }
    | (.error _, _) => .error .panic
  | (address, some account) =>
      let storage := post.storageOf address
      match state.openStorage address storage with
      | .error e => .error e
      | .ok trie => match trie.applySlots storage.storage with
        | .error e => .error e
        | .ok trie =>
            let stateAccount : TrieAccount :=
              ⟨account.nonce, account.balance, trie.hash keccak, account.getBytecodeHash⟩
            match state.stateTrie.insertRlp address.bytes stateAccount.encode with
            | (.ok _, stateTrie) =>
                .ok ⟨stateTrie, Function.update state.storageTries address (some trie)⟩
            | (.error _, _) => .error .panic

def updateAccounts (post : HashedPostState) :
    EthereumState → List (B256 × Option Account) → Except Fault EthereumState
  | state, [] => .ok state
  | state, account :: accounts => match updateAccount keccak post state account with
    | .error e => .error e
    | .ok state => updateAccounts post state accounts

/-- Apply the changes of a block. -/
def update (state : EthereumState) (post : HashedPostState) : Except Fault EthereumState :=
  updateAccounts keccak post state post.accounts

def stateRoot (state : EthereumState) : B256 := state.stateTrie.hash keccak

end

end EthereumState

section Sample

/-- The storage of an account with one slot. -/
def slotLeaf : MptNode := .Leaf (toEncodedPath (toNibs B256.zero.bytes) true) [1]

def slotAccount : TrieAccount :=
  ⟨1, 0, .ofNat 0x640f987e349a18e7eb07c14f9f79fdc3b69449402a2aca7edf3d3c36527a000a, KECCAK_EMPTY⟩

/-- The account, which is the only one. -/
def slotState : EthereumState :=
  ⟨.Leaf (toEncodedPath (toNibs B256.zero.bytes) true) slotAccount.encode,
    Function.update (fun _ => none) B256.zero (some slotLeaf)⟩

/-- The account after a block that moves its slot. -/
def movedAccount : TrieAccount :=
  ⟨2, 5, .ofNat 0x2f003d47e0d099769da5a92fe99ac9486ff4eeecdcc3a2579d1230c57ef66e97, KECCAK_EMPTY⟩

/-- Keccak-256 of the leaves of the account and of its slot, before and after. -/
def slotStateDigests : List (Bytes × B256) :=
  [([EMPTY_STRING_CODE], EMPTY_ROOT),
    ([0xe3, 0xa1, 0x20] ++ List.replicate 32 0 ++ [1], slotAccount.storageRoot),
    ([0xf8, 0x6a, 0xa1, 0x20] ++ List.replicate 32 0 ++ [0xb8, 0x46] ++ slotAccount.encode,
      .ofNat 0x961e395455cb4ab738540d446a4489f99881a56cc54da7e99127ad3a51300426),
    ([0xe3, 0xa1, 0x20] ++ List.replicate 31 0 ++ [1, 9], movedAccount.storageRoot),
    ([0xf8, 0x6a, 0xa1, 0x20] ++ List.replicate 32 0 ++ [0xb8, 0x46] ++ movedAccount.encode,
      .ofNat 0x93231a7e7ab0da66d656ef8a55cfe8bf6cc325507552a30bbcddb9d94d9efeab)]

abbrev slotKeccak : Bytes → B256 := tableHash slotStateDigests

theorem injOn_slotKeccak :
    Set.InjOn slotKeccak {encoded | encoded ∈ slotStateDigests.map Prod.fst} :=
  injOn_tableHash (by decide +kernel) fun _ h => h

end Sample

end FluentStf.Mpt
