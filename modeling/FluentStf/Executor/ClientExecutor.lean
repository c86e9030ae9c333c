import FluentStf.Executor.WitnessDb

/-! The execution of a block on a witness. The consensus rules and the execution of transactions
are those of a library; what the client adds is the witness they are run on, the checks around
them and the header and bridge hashes it returns. -/
namespace FluentStf.Executor

open Mpt Nitro

/-- The library that recovers senders, knows the consensus rules and executes transactions. What it
does with a database is assumed, not modelled: it only asks for accounts, code, slots and hashes of
blocks, and gets to them as `DatabaseRef.answer` says. The changes of a block come as maps, with
one entry for each key. -/
structure EvmConfig (Body Output Failure : Type) where
  tryIntoRecovered : Block Body → Bool
  validateHeader : SealedHeader → Except Failure Unit
  validateBodyAgainstHeader : Body → Header → Except Failure Unit
  validateHeaderAgainstParent : SealedHeader → SealedHeader → Except Failure Unit
  requests : Block Body → Program Request Response (Except Failure Output)
  execute : {m : Type → Type} → [Monad m] → DatabaseRef m → Block Body →
      m (Except Failure Output) :=
    fun db block => (requests block).run db.answer
  execute_eq : ∀ {m : Type → Type} [Monad m] (db : DatabaseRef m) (block : Block Body),
    execute db block = (requests block).run db.answer := by intros; rfl
  validateBlockPostExecution : Block Body → Output → Except Failure Unit
  receipts : Output → List Receipt
  hashedPostState : Output → HashedPostState
  accounts_nodup : ∀ output, ((hashedPostState output).accounts.map Prod.fst).Nodup
  slots_nodup : ∀ output address,
    (((hashedPostState output).storageOf address).storage.map Prod.fst).Nodup

/-- A panic or an error of the client. -/
inductive ClientFault (Failure : Type) where
  | panic
  | SignatureRecoveryFailed
  | BlockExecutionError (e : Failure)
  | PostExecutionError (e : Failure)
  | MismatchedStateRoot

/-- A result that is unwrapped. -/
def expect {ε α Failure : Type} : Except ε α → Except (ClientFault Failure) α
  | .ok a => .ok a
  | .error _ => .error .panic

/-- An early return unless a condition holds. -/
def require {ε : Type} (condition : Prop) [Decidable condition] (e : ε) : Except ε Unit :=
  if condition then .ok () else .error e

/-- The header as it is derived after the execution. The fields of later forks are left empty. -/
def deriveHeader (header : Header) (stateRoot : B256) (logsBloom : FixedBytes 256) : Header :=
  { header with stateRoot, logsBloom, blockAccessListHash := none, slotNumber := none }

section Fields

theorem flatten_append_inj {as bs : List Bytes} {x y : Bytes} (ha : ∀ a ∈ as, Rlp.IsItem a)
    (hb : ∀ b ∈ bs, Rlp.IsItem b) (hlength : as.length = bs.length)
    (h : as.flatten ++ x = bs.flatten ++ y) : as = bs := by
  induction as generalizing bs with
  | nil => exact (List.length_eq_zero_iff.mp hlength.symm).symm
  | cons a as ih =>
      cases bs with
      | nil => cases hlength
      | cons b bs =>
          rw [List.forall_mem_cons] at ha hb
          rw [List.flatten_cons, List.flatten_cons, List.append_assoc, List.append_assoc] at h
          obtain ⟨rfl, hrest⟩ := ha.1.append_inj hb.1 h
          rw [ih ha.2 hb.2 (Nat.succ.inj hlength) hrest]

theorem word_length_lt (word : B256) : word.bytes.length < 2 ^ 64 := by
  rw [word.length_eq]
  decide

/-- The fields in front of a header are read back from its encoding. -/
theorem fields_eq_of_encode {a b : Header} (h : a.encode = b.encode) :
    a.stateRoot = b.stateRoot ∧ a.logsBloom = b.logsBloom := by
  have hbloom : ∀ header : Header, header.logsBloom.bytes.length < 2 ^ 64 := by
    intro header
    rw [header.logsBloom.length_eq]
    decide
  have hitems : ∀ header : Header, ∀ item ∈ header.items.take 7, Rlp.IsItem item := by
    intro header
    have hword : ∀ word : B256, Rlp.IsItem (Header.encodeWord word) := fun word =>
      Rlp.encodeBytes_isItem _ (word_length_lt word)
    have haddress : Rlp.IsItem (Rlp.encodeBytes header.beneficiary.bytes) := by
      refine Rlp.encodeBytes_isItem _ ?_
      rw [header.beneficiary.length_eq]
      decide
    simp only [Header.items, List.cons_append, List.take_succ_cons, List.take_zero,
      List.forall_mem_cons]
    exact ⟨hword _, hword _, haddress, hword _, hword _, hword _,
      Rlp.encodeBytes_isItem _ (hbloom header), by simp⟩
  have hflatten := Rlp.flatten_eq_of_encodeList h
  rw [← List.take_append_drop 7 a.items, ← List.take_append_drop 7 b.items, List.flatten_append,
    List.flatten_append] at hflatten
  have hfront := flatten_append_inj (hitems a) (hitems b) rfl hflatten
  simp only [Header.items, Header.encodeWord, List.cons_append, List.take_succ_cons,
    List.take_zero, List.cons.injEq] at hfront
  obtain ⟨-, -, -, hroot, -, -, hlogs, -⟩ := hfront
  refine ⟨B256.ext (Rlp.encodeBytes_inj (word_length_lt _) (word_length_lt _) hroot), ?_⟩
  have hbytes := Rlp.encodeBytes_inj (hbloom a) (hbloom b) hlogs
  cases hbloomA : a.logsBloom
  cases hbloomB : b.logsBloom
  simpa only [hbloomA, hbloomB, FixedBytes.mk.injEq] using hbytes

end Fields

section

variable {Body Output Failure : Type} (config : EvmConfig Body Output Failure)
  (keccak : Bytes → B256)

namespace EvmConfig

def validateBlock (block : Block Body) : Except Failure Unit := do
  config.validateHeader (sealSlow keccak block.header)
  config.validateBodyAgainstHeader block.body block.header

/-- The parents and the steps from each header to its parent. -/
def validateAncestors : List SealedHeader → Except Failure Unit
  | header :: parent :: rest => do
      config.validateHeader parent
      config.validateHeaderAgainstParent header parent
      validateAncestors (parent :: rest)
  | _ => .ok ()

end EvmConfig

/-- The block on the database of the witness. -/
def executeBlock (db : TrieDB) (block : Block Body) : Except (ClientFault Failure) Output :=
  match config.execute (db.databaseRef keccak) block with
  | none => .error .panic
  | some (.error e) => .error (.BlockExecutionError e)
  | some (.ok output) => .ok output

def validatePostExecution (block : Block Body) (output : Output) :
    Except (ClientFault Failure) Unit :=
  match config.validateBlockPostExecution block output with
  | .error e => .error (.PostExecutionError e)
  | .ok () => .ok ()

def checkBridgeHashes (output : Output) : Except (ClientFault Failure) BridgeHashes :=
  match BRIDGE_INFO.calculateBridgeHashes keccak (config.receipts output) with
  | none => .error .panic
  | some hashes => .ok hashes

/-- Execute a block on its witness. -/
def execute (input : ClientInput Body) : Except (ClientFault Failure) (Header × BridgeHashes) := do
  let db ← expect (input.witnessDb keccak)
  require (config.tryIntoRecovered input.block = true) .SignatureRecoveryFailed
  expect (config.validateBlock keccak input.block)
  expect (config.validateAncestors (input.sealedHeaders keccak))
  let output ← executeBlock config keccak db input.block
  validatePostExecution config input.block output
  let state ← expect (input.parentState.update keccak (config.hashedPostState output))
  require (state.stateRoot keccak = input.currentBlock.stateRoot) .MismatchedStateRoot
  let hashes ← checkBridgeHashes config keccak output
  return (deriveHeader input.currentBlock (state.stateRoot keccak) input.currentBlock.logsBloom,
    hashes)

end

section

variable {Body Output Failure : Type} {config : EvmConfig Body Output Failure}
  {keccak : Bytes → B256}

theorem expect_eq_ok {ε α : Type} {x : Except ε α} {a : α} :
    (expect x : Except (ClientFault Failure) α) = .ok a ↔ x = .ok a := by
  cases x <;> simp [expect]

theorem mapError_eq_ok {ε ε' α : Type} {f : ε → ε'} {x : Except ε α} {a : α} :
    x.mapError f = .ok a ↔ x = .ok a := by
  cases x <;> simp [Except.mapError]

theorem require_eq_ok {ε : Type} {condition : Prop} [Decidable condition] {e : ε} {u : Unit} :
    require condition e = .ok u ↔ condition := by
  rw [require]
  split_ifs with h <;> simp [h]

theorem executeBlock_eq_ok {db : TrieDB} {block : Block Body} {output : Output} :
    executeBlock config keccak db block = .ok output ↔
      config.execute (db.databaseRef keccak) block = some (.ok output) := by
  rw [executeBlock]
  split
  · next h => simp [h]
  · next h => simp [h]
  · next h => simp [h]

theorem validatePostExecution_eq_ok {block : Block Body} {output : Output} {u : Unit} :
    validatePostExecution config block output = .ok u ↔
      config.validateBlockPostExecution block output = .ok () := by
  rw [validatePostExecution]
  cases config.validateBlockPostExecution block output <;> simp

theorem checkBridgeHashes_eq_ok {output : Output} {hashes : BridgeHashes} :
    checkBridgeHashes config keccak output = .ok hashes ↔
      BRIDGE_INFO.calculateBridgeHashes keccak (config.receipts output) = some hashes := by
  rw [checkBridgeHashes]
  cases BRIDGE_INFO.calculateBridgeHashes keccak (config.receipts output) <;> simp

/-- What an execution that succeeds went through. -/
structure Executed (config : EvmConfig Body Output Failure) (keccak : Bytes → B256)
    (input : ClientInput Body) (db : TrieDB) (output : Output) (state : EthereumState)
    (hashes : BridgeHashes) : Prop where
  witness : input.witnessDb keccak = .ok db
  recovered : config.tryIntoRecovered input.block = true
  block : config.validateBlock keccak input.block = .ok ()
  ancestors : config.validateAncestors (input.sealedHeaders keccak) = .ok ()
  run : config.execute (db.databaseRef keccak) input.block = some (.ok output)
  post : config.validateBlockPostExecution input.block output = .ok ()
  update : input.parentState.update keccak (config.hashedPostState output) = .ok state
  root : state.stateRoot keccak = input.currentBlock.stateRoot
  hashes : BRIDGE_INFO.calculateBridgeHashes keccak (config.receipts output) = some hashes

theorem execute_eq_ok {input : ClientInput Body} {header : Header} {hashes : BridgeHashes} :
    execute config keccak input = .ok (header, hashes) ↔
      (∃ db output state, Executed config keccak input db output state hashes) ∧
        header = deriveHeader input.currentBlock input.currentBlock.stateRoot
          input.currentBlock.logsBloom := by
  simp only [execute, bind_eq_ok, expect_eq_ok, require_eq_ok, executeBlock_eq_ok,
    validatePostExecution_eq_ok, checkBridgeHashes_eq_ok]
  constructor
  · rintro ⟨db, hdb, _, hrecovered, _, hblock, _, hancestors, output, hrun, _, hpost, state,
      hupdate, _, hroot, _, hhashes, hresult⟩
    cases hresult
    exact ⟨⟨db, output, state, hdb, hrecovered, hblock, hancestors, hrun, hpost, hupdate, hroot,
      hhashes⟩, by rw [hroot]⟩
  · rintro ⟨⟨db, output, state, h⟩, rfl⟩
    refine ⟨db, h.witness, (), h.recovered, (), h.block, (), h.ancestors, output, h.run, (), h.post,
      state, h.update, (), h.root, hashes, h.hashes, ?_⟩
    rw [h.root]
    rfl

end

end FluentStf.Executor
