import FluentStf.Executor.BlockHash
import FluentStf.Executor.BridgeHashes
import FluentStf.Executor.World
import FluentStf.Mpt.Multiproof
import FluentStf.Program

/-! The database that the client executes a block on. It reads from the tries of the witness,
after their roots were compared with the parent header and with the accounts. -/
namespace FluentStf.Mpt

/-- The value of a slot. Bytes after the number are not looked at. -/
def MptNode.getRlpU256 (node : MptNode) (key : Bytes) : Except Fault (Option U256) :=
  match node.get key with
  | .error e => .error e
  | .ok none => .ok none
  | .ok (some bytes) => match Rlp.decodeNat 32 bytes with
    | .error _ => .error (.error .Rlp)
    | .ok (value, _) => .ok (some (Fin.ofNat (2 ^ 256) value))

/-- A slot reads as the value that was written, zero if it was removed. -/
theorem MptNode.getRlpU256_slotValue {node : MptNode} {key : Bytes} {value : U256}
    (h : node.get key = .ok (slotValue value)) :
    ∃ found, node.getRlpU256 key = .ok found ∧ found.getD 0 = value := by
  rw [getRlpU256, h, slotValue]
  by_cases hzero : value = 0
  · exact ⟨none, by rw [if_pos hzero], hzero.symm⟩
  · have hdecode := @Rlp.decodeNat_encodeNat 32 value.val le_rfl value.isLt []
    rw [List.append_nil] at hdecode
    refine ⟨some value, ?_, rfl⟩
    simp only [if_neg hzero, hdecode, Fin.ofNat_val_eq_self]

end FluentStf.Mpt

namespace FluentStf.Executor

open Mpt

structure AccountInfo where
  balance : U256
  nonce : UInt64
  codeHash : B256
  code : Option Bytes
deriving DecidableEq

def AccountInfo.basics (info : AccountInfo) : AccountBasics :=
  ⟨info.nonce, info.balance, info.codeHash⟩

/-- What a block executor reads from, with the effects of reading. -/
structure DatabaseRef (m : Type → Type) where
  basicRef : Address → m (Option AccountInfo)
  codeByHashRef : B256 → m Bytes
  storageRef : Address → U256 → m U256
  blockHashRef : UInt64 → m B256

/-- What the execution of a block asks for. -/
inductive Request where
  | account (address : Address)
  | code (address : Address)
  | storage (address : Address) (index : U256)
  | blockHash (number : UInt64)

def Response : Request → Type
  | .account _ => Option AccountBasics
  | .code _ => Bytes
  | .storage _ _ => U256
  | .blockHash _ => B256

/-- The references that a request leads to, for an executor that loads an account before its code
or its slots. Code is looked up by its hash when it did not come with the account and is not empty;
the slots of an account that is not there are zero. -/
def DatabaseRef.answer {m : Type → Type} [Monad m] (db : DatabaseRef m) :
    (request : Request) → m (Response request)
  | .account address => do
      let info ← db.basicRef address
      return info.map AccountInfo.basics
  | .code address => do
      match ← db.basicRef address with
      | none => return []
      | some info => match info.code with
        | some code => return code
        | none => if info.codeHash = KECCAK_EMPTY then return [] else db.codeByHashRef info.codeHash
  | .storage address index => do
      match ← db.basicRef address with
      | none => return (0 : U256)
      | some _ => db.storageRef address index
  | .blockHash number => db.blockHashRef number

/-- The storage tries are a map, here with its keys in the order in which it is iterated over. -/
structure WitnessState extends EthereumState where
  addresses : List B256
  mem_addresses : ∀ address, address ∈ addresses ↔ storageTries address ≠ none

structure Block (Body : Type) where
  header : Header
  body : Body

/-- The input of the client. The switch for tracking opcodes and the unused custom beneficiary
are left out. -/
structure ClientInput (Body : Type) extends ClientExecutorInput where
  body : Body
  parentState : WitnessState
  bytecodes : List Bytes

def ClientInput.block {Body : Type} (input : ClientInput Body) : Block Body :=
  ⟨input.currentBlock, input.body⟩

/-- The database of the client: all that it answers comes from the witness. -/
structure TrieDB where
  inner : EthereumState
  blockHashes : BlockHashes
  bytecodeByHash : B256 → Option Bytes

section

variable (keccak : Bytes → B256)

def hashAddress (address : Address) : B256 := keccak address.bytes

def hashIndex (index : U256) : B256 := keccak (beBytes 32 index.val)

def codeHashSlow (code : Bytes) : B256 := if code = [] then KECCAK_EMPTY else keccak code

/-- Codes by their hashes. -/
def bytecodesByHash (bytecodes : List Bytes) : B256 → Option Bytes :=
  bytecodes.foldl (fun table code => Function.update table (codeHashSlow keccak code) (some code))
    fun _ => none

namespace TrieDB

variable (db : TrieDB)

def basicRef (address : Address) : Option (Option AccountInfo) :=
  match db.inner.stateTrie.getRlp (hashAddress keccak address).bytes with
  | .error _ => none
  | .ok account => some (account.map fun account =>
      ⟨account.balance, account.nonce, account.codeHash, none⟩)

def codeByHashRef (hash : B256) : Option Bytes := db.bytecodeByHash hash

def storageRef (address : Address) (index : U256) : Option U256 := do
  let trie ← db.inner.storageTries (hashAddress keccak address)
  match trie.getRlpU256 (hashIndex keccak index).bytes with
  | .error _ => none
  | .ok value => some (value.getD 0)

/-- What is not in the witness makes the client panic. -/
def databaseRef : DatabaseRef Option where
  basicRef := db.basicRef keccak
  codeByHashRef := db.codeByHashRef
  storageRef := db.storageRef keccak
  blockHashRef number := FluentStf.Executor.blockHashRef db.blockHashes number

end TrieDB

/-- Why a witness is refused. -/
inductive WitnessFault where
  | MismatchedStateRoot
  | MismatchedStorageRoot
  | headers (e : ClientError)
  | panic
deriving DecidableEq

/-- Every storage trie must have the root of its account, the empty one without an account. -/
def checkStorageRoots (state : EthereumState) : List B256 → Except WitnessFault Unit
  | [] => .ok ()
  | address :: rest => match state.storageTries address with
    | none => checkStorageRoots state rest
    | some trie => match state.stateTrie.getRlp address.bytes with
      | .error _ => .error .panic
      | .ok account =>
          if (account.map TrieAccount.storageRoot).getD EMPTY_ROOT ≠ trie.hash keccak then
            .error .MismatchedStorageRoot
          else checkStorageRoots state rest

/-- Check the witness and open it as a database. Without a parent header there is nothing to
check it against. -/
def ClientInput.witnessDb {Body : Type} (input : ClientInput Body) : Except WitnessFault TrieDB :=
  match input.ancestorHeaders with
  | [] => .error .panic
  | parent :: _ =>
      if parent.stateRoot ≠ input.parentState.stateRoot keccak then .error .MismatchedStateRoot
      else do
        checkStorageRoots keccak input.parentState.toEthereumState input.parentState.addresses
        match input.blockHashes keccak with
        | .error e => .error (.headers e)
        | .ok blockHashes => .ok ⟨input.parentState.toEthereumState, blockHashes,
            bytecodesByHash keccak input.bytecodes⟩

end

section

variable {keccak : Bytes → B256}

theorem checkStorageRoots_eq_ok {state : EthereumState} {addresses : List B256} :
    checkStorageRoots keccak state addresses = .ok () ↔
      ∀ address ∈ addresses, ∀ trie, state.storageTries address = some trie →
        ∃ account, state.stateTrie.getRlp address.bytes = .ok account ∧
          (account.map TrieAccount.storageRoot).getD EMPTY_ROOT = trie.hash keccak := by
  induction addresses with
  | nil => simp [checkStorageRoots]
  | cons address rest ih =>
      rw [List.forall_mem_cons, ← ih, checkStorageRoots]
      cases state.storageTries address with
      | none => simp
      | some trie =>
          cases state.stateTrie.getRlp address.bytes with
          | error e => simp
          | ok account =>
              by_cases hroot : (account.map TrieAccount.storageRoot).getD EMPTY_ROOT =
                  trie.hash keccak
              · simp [hroot]
              · simp [hroot]

/-- The check goes over all storage tries. -/
theorem checkStorageRoots_addresses {state : WitnessState} :
    checkStorageRoots keccak state.toEthereumState state.addresses = .ok () ↔
      StorageRootsMatch keccak state.toEthereumState := by
  rw [checkStorageRoots_eq_ok]
  constructor
  · intro h address trie htrie
    exact h address ((state.mem_addresses address).mpr (by simp [htrie])) trie htrie
  · exact fun h address _ trie htrie => h address trie htrie

/-- What an accepted witness has, and the database that is made of it. -/
theorem witnessDb_eq_ok {Body : Type} {input : ClientInput Body} {db : TrieDB} :
    input.witnessDb keccak = .ok db ↔
      ∃ parent rest blockHashes, input.ancestorHeaders = parent :: rest ∧
        parent.stateRoot = input.parentState.stateRoot keccak ∧
        StorageRootsMatch keccak input.parentState.toEthereumState ∧
        input.blockHashes keccak = .ok blockHashes ∧
        db = ⟨input.parentState.toEthereumState, blockHashes,
          bytecodesByHash keccak input.bytecodes⟩ := by
  rw [ClientInput.witnessDb]
  cases input.ancestorHeaders with
  | nil => simp
  | cons parent rest =>
      by_cases hroot : parent.stateRoot = input.parentState.stateRoot keccak
      · rw [← checkStorageRoots_addresses]
        simp only [hroot, ne_eq, not_true_eq_false, if_false, bind_eq_ok]
        cases input.blockHashes keccak with
        | error e => simp
        | ok blockHashes =>
            constructor
            · rintro ⟨_, hcheck, hdb⟩
              cases hdb
              exact ⟨parent, rest, blockHashes, rfl, hroot, hcheck, rfl, rfl⟩
            · rintro ⟨_, _, _, _, _, hcheck, hhashes, rfl⟩
              cases hhashes
              exact ⟨(), hcheck, rfl⟩
      · simp only [hroot, ne_eq, not_false_eq_true, if_true, reduceCtorEq, false_iff]
        rintro ⟨_, _, _, hheaders, hsame, _⟩
        cases hheaders
        exact hroot hsame

/-- A code is found under its own hash. -/
theorem bytecodesByHash_eq_some {bytecodes : List Bytes} {hash : B256} {code : Bytes}
    (h : bytecodesByHash keccak bytecodes hash = some code) :
    code ∈ bytecodes ∧ codeHashSlow keccak code = hash := by
  have hfold : ∀ (bytecodes : List Bytes) (table : B256 → Option Bytes),
      bytecodes.foldl (fun table code =>
        Function.update table (codeHashSlow keccak code) (some code)) table hash = some code →
      table hash = some code ∨ code ∈ bytecodes ∧ codeHashSlow keccak code = hash := by
    intro bytecodes
    induction bytecodes with
    | nil => exact fun table h => .inl h
    | cons first rest ih =>
        intro table h
        rcases ih _ h with htable | ⟨hmem, hhash⟩
        · simp only at htable
          by_cases hfirst : hash = codeHashSlow keccak first
          · rw [hfirst, Function.update_self] at htable
            cases htable
            exact .inr ⟨.head _, hfirst.symm⟩
          · rw [Function.update_of_ne hfirst] at htable
            exact .inl htable
        · exact .inr ⟨.tail _ hmem, hhash⟩
  rcases hfold bytecodes _ h with hnone | hfound
  · cases hnone
  · exact hfound

/-- A code is found, unless another one has its hash. -/
theorem bytecodesByHash_of_mem {bytecodes : List Bytes} {code : Bytes} (hmem : code ∈ bytecodes)
    (hunique : ∀ other ∈ bytecodes, codeHashSlow keccak other = codeHashSlow keccak code →
      other = code) :
    bytecodesByHash keccak bytecodes (codeHashSlow keccak code) = some code := by
  have hfold : ∀ (bytecodes : List Bytes) (table : B256 → Option Bytes),
      (∀ other ∈ bytecodes, codeHashSlow keccak other = codeHashSlow keccak code →
        other = code) →
      code ∈ bytecodes ∨ table (codeHashSlow keccak code) = some code →
      bytecodes.foldl (fun table code => Function.update table (codeHashSlow keccak code)
        (some code)) table (codeHashSlow keccak code) = some code := by
    intro bytecodes
    induction bytecodes with
    | nil => exact fun table _ h => h.resolve_left List.not_mem_nil
    | cons first rest ih =>
        intro table hunique h
        rw [List.forall_mem_cons] at hunique
        refine ih _ hunique.2 ?_
        simp only
        by_cases hfirst : codeHashSlow keccak first = codeHashSlow keccak code
        · rw [hunique.1 hfirst, Function.update_self]
          exact .inr rfl
        · rw [Function.update_of_ne (Ne.symm hfirst)]
          refine h.imp_left fun hin => ?_
          rcases List.mem_cons.mp hin with rfl | hin
          · exact absurd rfl hfirst
          · exact hin
  exact hfold bytecodes _ hunique (.inl hmem)

end

end FluentStf.Executor
