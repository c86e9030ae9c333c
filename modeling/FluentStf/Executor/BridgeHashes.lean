import FluentStf.Executor.EventsHash
import FluentStf.NitroValidator.SignedMessages

/-! The two hashes over the bridge events of a block. Deposits are hashed as one string and
withdrawals as the leaves of a Merkle tree. Both see the logs of the bridge contract in
transactions that succeeded, in the order of the block. -/
namespace FluentStf.Executor

open Nitro

abbrev Address := FixedBytes 20

structure Log where
  address : Address
  topics : List B256
  data : Bytes
deriving DecidableEq

/-- What is read of a receipt. -/
structure Receipt where
  status : Bool
  logs : List Log
deriving DecidableEq

/-- The bridge contract and the topics of its three events. -/
structure BridgeInfo where
  bridgeAddress : Address
  withdrawalTopic : B256
  rollbackTopic : B256
  depositTopic : B256

def BRIDGE_ADDRESS : Address :=
  ⟨beBytes 20 0x9CAcf613fC29015893728563f423fD26dCdB8Ddc, beBytes_length _ _⟩

def LEGACY_BRIDGE_WITHDRAWAL_TOPIC : B256 :=
  .ofNat 0x7b397c6ce16a73396390bf270a2021417ca4d97f44e82cdce3f5eb750fd34134

def BRIDGE_WITHDRAWAL_TOPIC : B256 :=
  .ofNat 0xd6dd852a42072c8955866b4726f03b3970da8db758c7af9a7130fcb97bf05977

def BRIDGE_ROLLBACK_TOPIC : B256 :=
  .ofNat 0xdf7aa00ff05158efbc91b05d801c14d80f3d08daf5b13c7f066030c864be3d65

def BRIDGE_DEPOSIT_TOPIC : B256 :=
  .ofNat 0xc5797c3a3c0e6c245576d05b8c3929881b44e1a21fdb4f1b118ede3c009683c5

def BRIDGE_INFO : BridgeInfo :=
  ⟨BRIDGE_ADDRESS, BRIDGE_WITHDRAWAL_TOPIC, BRIDGE_ROLLBACK_TOPIC, BRIDGE_DEPOSIT_TOPIC⟩

def RECEIVE_EVENT_MESSAGE_HASH_OFFSET : Nat := 0

def SEND_EVENT_MESSAGE_HASH_OFFSET : Nat := 160

def LEGACY_SEND_EVENT_MESSAGE_HASH_OFFSET : Nat := 128

def ROLLBACK_EVENT_MESSAGE_HASH_OFFSET : Nat := 0

/-- The word at an offset of the data. Shorter data has no message. -/
def messageHashAt (offset : Nat) (data : Bytes) : Option B256 :=
  if h : offset + 32 ≤ data.length then
    some ⟨(data.drop offset).take 32, by rw [List.length_take, List.length_drop]; omega⟩
  else none

/-- The logs of the transactions that succeeded. -/
def successfulLogs (receipts : List Receipt) : List Log :=
  (receipts.filter Receipt.status).flatMap Receipt.logs

def findReceiptLog (bridgeAddress : Address) (topic : B256) (receipts : List Receipt) : List Log :=
  (successfulLogs receipts).filter fun log =>
    log.address = bridgeAddress ∧ log.topics.head? = some topic

namespace BridgeInfo

variable (info : BridgeInfo)

def depositMessages (receipts : List Receipt) : List B256 :=
  (findReceiptLog info.bridgeAddress info.depositTopic receipts).filterMap fun log =>
    messageHashAt RECEIVE_EVENT_MESSAGE_HASH_OFFSET log.data

/-- The message of a withdrawal or a rollback. The topic of the former contract is checked
between the two. -/
def withdrawalMessage (log : Log) : Option B256 := do
  let topic ← log.topics.head?
  if topic = info.withdrawalTopic then messageHashAt SEND_EVENT_MESSAGE_HASH_OFFSET log.data
  else if topic = LEGACY_BRIDGE_WITHDRAWAL_TOPIC then
    messageHashAt LEGACY_SEND_EVENT_MESSAGE_HASH_OFFSET log.data
  else if topic = info.rollbackTopic then
    messageHashAt ROLLBACK_EVENT_MESSAGE_HASH_OFFSET log.data
  else none

def withdrawalMessages (receipts : List Receipt) : List B256 :=
  ((successfulLogs receipts).filter fun log => log.address = info.bridgeAddress).filterMap
    info.withdrawalMessage

variable (keccak : Bytes → B256)

def calculateDepositHash (receipts : List Receipt) : B256 :=
  keccak ((info.depositMessages receipts).flatMap B256.bytes)

def calculateWithdrawalRoot (receipts : List Receipt) : Option B256 :=
  merkleRoot keccak (info.withdrawalMessages receipts)

/-- Both hashes, `none` if the Merkle loop leaves its array. -/
def calculateBridgeHashes (receipts : List Receipt) : Option BridgeHashes := do
  let withdrawalHash ← info.calculateWithdrawalRoot keccak receipts
  some ⟨withdrawalHash, info.calculateDepositHash keccak receipts⟩

variable {info keccak}

theorem calculateWithdrawalRoot_eq {receipts : List Receipt}
    (h : info.withdrawalMessages receipts ≠ []) :
    info.calculateWithdrawalRoot keccak receipts =
      Merkle.root (keccakPair keccak) (info.withdrawalMessages receipts) :=
  merkleRoot_eq h

/-- The Merkle loop stays in its array. -/
theorem exists_calculateBridgeHashes (receipts : List Receipt) :
    ∃ hashes, info.calculateBridgeHashes keccak receipts = some hashes := by
  by_cases hempty : info.withdrawalMessages receipts = []
  · exact ⟨_, by rw [calculateBridgeHashes, calculateWithdrawalRoot, hempty]; rfl⟩
  · obtain ⟨root, hroot⟩ := Merkle.exists_root (keccakPair keccak) hempty
    exact ⟨_, by rw [calculateBridgeHashes, calculateWithdrawalRoot_eq hempty, hroot]; rfl⟩

theorem successfulLogs_append (receipts others : List Receipt) :
    successfulLogs (receipts ++ others) = successfulLogs receipts ++ successfulLogs others := by
  rw [successfulLogs, List.filter_append, List.flatMap_append]
  rfl

theorem withdrawalMessages_append (receipts others : List Receipt) :
    info.withdrawalMessages (receipts ++ others) =
      info.withdrawalMessages receipts ++ info.withdrawalMessages others := by
  simp only [withdrawalMessages, successfulLogs_append, List.filter_append, List.filterMap_append]

end BridgeInfo

/-- An odd last leaf may as well stand twice. -/
theorem root_append_last {α : Type*} (join : α → α → α) {leaves : List α} {last : α}
    (hlast : leaves.getLast? = some last) (hodd : leaves.length % 2 = 1)
    (hmany : 1 < leaves.length) :
    Merkle.root join (leaves ++ [last]) = Merkle.root join leaves := by
  match leaves, hmany with
  | a :: b :: rest, _ =>
      have hpadded : Merkle.padded (a :: b :: rest ++ [last]) = Merkle.padded (a :: b :: rest) := by
        have heven : (a :: b :: rest ++ [last]).length % 2 = 0 := by
          rw [List.length_append, List.length_singleton]
          omega
        rw [Merkle.padded, if_pos heven, Merkle.padded, if_neg (by omega), hlast]
        rfl
      have hparents : Merkle.parents join (a :: b :: (rest ++ [last])) =
          Merkle.parents join (a :: b :: rest) := by
        rw [Merkle.parents, Merkle.parents]
        exact congrArg _ (congrArg _ hpadded)
      rw [List.cons_append, List.cons_append, Merkle.root, Merkle.root, hparents]

/-- The event that takes a message back. -/
def rollbackReceipt (message : B256) : Receipt :=
  ⟨true, [⟨BRIDGE_ADDRESS, [BRIDGE_ROLLBACK_TOPIC], message.bytes⟩]⟩

theorem withdrawalMessages_rollback (message : B256) :
    BRIDGE_INFO.withdrawalMessages [rollbackReceipt message] = [message] := by
  have htopic : BRIDGE_ROLLBACK_TOPIC ≠ BRIDGE_WITHDRAWAL_TOPIC ∧
      BRIDGE_ROLLBACK_TOPIC ≠ LEGACY_BRIDGE_WITHDRAWAL_TOPIC := by decide +kernel
  have hlength := message.length_eq
  have htake : message.bytes.take 32 = message.bytes := List.take_of_length_le (by omega)
  simp [BridgeInfo.withdrawalMessages, rollbackReceipt, successfulLogs, BRIDGE_INFO,
    BridgeInfo.withdrawalMessage, htopic, messageHashAt, ROLLBACK_EVENT_MESSAGE_HASH_OFFSET,
    hlength, htake]

/-- What the two hashes of a block tell about its bridge events. The deposit hash determines the
deposits. The withdrawal root determines the withdrawals of a given number only: when a block
has an odd number of them, but more than one, it does not show that the last one is taken back. -/
theorem bridge_hashes_bind (keccak : Bytes → B256) :
    (∀ receipts others : List Receipt,
      Set.InjOn keccak {input | input = (BRIDGE_INFO.depositMessages receipts).flatMap B256.bytes ∨
        input = (BRIDGE_INFO.depositMessages others).flatMap B256.bytes} →
      BRIDGE_INFO.calculateDepositHash keccak receipts =
        BRIDGE_INFO.calculateDepositHash keccak others →
      BRIDGE_INFO.depositMessages receipts = BRIDGE_INFO.depositMessages others) ∧
    (∀ receipts others : List Receipt,
      (BRIDGE_INFO.withdrawalMessages receipts).length =
        (BRIDGE_INFO.withdrawalMessages others).length →
      Set.InjOn keccak {input | input ∈ hashInputs keccak
        (BRIDGE_INFO.withdrawalMessages receipts) ∨
        input ∈ hashInputs keccak (BRIDGE_INFO.withdrawalMessages others)} →
      BRIDGE_INFO.calculateWithdrawalRoot keccak receipts =
        BRIDGE_INFO.calculateWithdrawalRoot keccak others →
      BRIDGE_INFO.withdrawalMessages receipts = BRIDGE_INFO.withdrawalMessages others) ∧
    ∀ (receipts : List Receipt) (last : B256),
      (BRIDGE_INFO.withdrawalMessages receipts).getLast? = some last →
      (BRIDGE_INFO.withdrawalMessages receipts).length % 2 = 1 →
      1 < (BRIDGE_INFO.withdrawalMessages receipts).length →
      BRIDGE_INFO.withdrawalMessages (receipts ++ [rollbackReceipt last]) =
          BRIDGE_INFO.withdrawalMessages receipts ++ [last] ∧
        BRIDGE_INFO.calculateWithdrawalRoot keccak (receipts ++ [rollbackReceipt last]) =
          BRIDGE_INFO.calculateWithdrawalRoot keccak receipts := by
  refine ⟨?_, ?_, ?_⟩
  · intro receipts others hinj h
    exact NitroValidator.flatMap_bytes_inj (hinj (.inl rfl) (.inr rfl) h)
  · intro receipts others hlength hinj h
    by_cases hempty : BRIDGE_INFO.withdrawalMessages receipts = []
    · rw [hempty] at hlength ⊢
      exact (List.length_eq_zero_iff.mp hlength.symm).symm
    · have hothers : BRIDGE_INFO.withdrawalMessages others ≠ [] := by
        intro hnil
        rw [hnil] at hlength
        exact hempty (List.length_eq_zero_iff.mp hlength)
      rw [BridgeInfo.calculateWithdrawalRoot_eq hempty,
        BridgeInfo.calculateWithdrawalRoot_eq hothers] at h
      exact Merkle.root_inj hlength (injOn_joined hinj) h
  · intro receipts last hlast hodd hmany
    have happend : BRIDGE_INFO.withdrawalMessages (receipts ++ [rollbackReceipt last]) =
        BRIDGE_INFO.withdrawalMessages receipts ++ [last] := by
      rw [BridgeInfo.withdrawalMessages_append, withdrawalMessages_rollback]
    refine ⟨happend, ?_⟩
    rw [BridgeInfo.calculateWithdrawalRoot_eq (by rw [happend]; simp),
      BridgeInfo.calculateWithdrawalRoot_eq (List.ne_nil_of_length_pos (by omega)), happend,
      root_append_last _ hlast hodd hmany]

section Sample

/-- Three messages are taken back, one in each transaction. -/
def threeRollbacks : List Receipt :=
  [rollbackReceipt (.ofNat 1), rollbackReceipt (.ofNat 2), rollbackReceipt (.ofNat 3)]

/-- The third message is taken back once more without a trace in the root. -/
theorem bridge_hashes_bind_three :
    BRIDGE_INFO.withdrawalMessages (threeRollbacks ++ [rollbackReceipt (.ofNat 3)]) ≠
        BRIDGE_INFO.withdrawalMessages threeRollbacks ∧
      BRIDGE_INFO.calculateWithdrawalRoot (tableHash threeDigests)
          (threeRollbacks ++ [rollbackReceipt (.ofNat 3)]) =
        BRIDGE_INFO.calculateWithdrawalRoot (tableHash threeDigests) threeRollbacks := by
  have hmessages : BRIDGE_INFO.withdrawalMessages threeRollbacks =
      [.ofNat 1, .ofNat 2, .ofNat 3] := by
    decide +kernel
  obtain ⟨happend, hroot⟩ := (bridge_hashes_bind (tableHash threeDigests)).2.2 threeRollbacks
    (.ofNat 3) (by rw [hmessages]; rfl) (by rw [hmessages]; rfl) (by rw [hmessages]; decide)
  refine ⟨?_, hroot⟩
  rw [happend]
  simp

end Sample

end FluentStf.Executor
