import FluentStf.Mpt.OrderedRoot

/-! Block headers, their encoding and their hash. -/
namespace FluentStf

/-- A word of another fixed width. -/
structure FixedBytes (n : Nat) where
  bytes : Bytes
  length_eq : bytes.length = n
deriving DecidableEq

def FixedBytes.zero (n : Nat) : FixedBytes n := ⟨List.replicate n 0, by simp⟩

/-- The header of a block. Fields of later forks are absent in earlier blocks. -/
structure Header where
  parentHash : B256
  ommersHash : B256
  beneficiary : FixedBytes 20
  stateRoot : B256
  transactionsRoot : B256
  receiptsRoot : B256
  logsBloom : FixedBytes 256
  difficulty : BitVec 256
  number : UInt64
  gasLimit : UInt64
  gasUsed : UInt64
  timestamp : UInt64
  extraData : Bytes
  mixHash : B256
  nonce : FixedBytes 8
  baseFeePerGas : Option UInt64
  withdrawalsRoot : Option B256
  blobGasUsed : Option UInt64
  excessBlobGas : Option UInt64
  parentBeaconBlockRoot : Option B256
  requestsHash : Option B256
  blockAccessListHash : Option B256
  slotNumber : Option UInt64
deriving DecidableEq

namespace Header

def encodeWord (word : B256) : Bytes := Rlp.encodeBytes word.bytes

def encodeU64 (n : UInt64) : Bytes := Rlp.encodeNat n.toNat

/-- The encoded fields, as far as the header has them. -/
def items (header : Header) : List Bytes :=
  [encodeWord header.parentHash, encodeWord header.ommersHash,
    Rlp.encodeBytes header.beneficiary.bytes, encodeWord header.stateRoot,
    encodeWord header.transactionsRoot, encodeWord header.receiptsRoot,
    Rlp.encodeBytes header.logsBloom.bytes, Rlp.encodeNat header.difficulty.toNat,
    encodeU64 header.number, encodeU64 header.gasLimit, encodeU64 header.gasUsed,
    encodeU64 header.timestamp, Rlp.encodeBytes header.extraData, encodeWord header.mixHash,
    Rlp.encodeBytes header.nonce.bytes] ++
  [header.baseFeePerGas.map encodeU64, header.withdrawalsRoot.map encodeWord,
    header.blobGasUsed.map encodeU64, header.excessBlobGas.map encodeU64,
    header.parentBeaconBlockRoot.map encodeWord, header.requestsHash.map encodeWord,
    header.blockAccessListHash.map encodeWord, header.slotNumber.map encodeU64].reduceOption

def encode (header : Header) : Bytes := Rlp.encodeList header.items

def hashSlow (keccak : Bytes → B256) (header : Header) : B256 := keccak header.encode

end Header

/-- A block as the guests execute it: its header and its transaction envelopes. -/
structure ExecutedBlock where
  header : Header
  transactions : List Bytes
deriving DecidableEq

/-- The header commits to the transactions. -/
def ExecutedBlock.Committed (keccak : Bytes → B256) (block : ExecutedBlock) : Prop :=
  Mpt.ValidTransactions block.transactions ∧
    block.header.transactionsRoot = Mpt.transactionsRoot keccak block.transactions

end FluentStf
