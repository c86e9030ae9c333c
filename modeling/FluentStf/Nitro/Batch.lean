import FluentStf.Highest
import FluentStf.Nitro.Transactions
import Mathlib.Data.List.ReduceOption

/-! How the enclave answers a request to sign a batch: leaves and hashes come from
its own store or from responses that it signed, the blobs are checked against the
hashes, and the Merkle root is signed together with the hashes of the blobs. -/
namespace FluentStf.Nitro

open Blob Std

/-- What is kept of an executed block. -/
structure BlockEntry where
  leaf : B256
  blockHash : B256
deriving DecidableEq

def MAX_ENTRIES : Nat := 2 ^ 18

/-- The entries of the highest blocks. -/
structure BlockStore where
  entries : ExtTreeMap UInt64 BlockEntry

namespace BlockStore

def new : BlockStore := ⟨∅⟩

def get (store : BlockStore) (blockNumber : UInt64) : Option BlockEntry :=
  store.entries[blockNumber]?

/-- The loop that drops the lowest blocks while there are too many. -/
def evict (entries : ExtTreeMap UInt64 BlockEntry) : ExtTreeMap UInt64 BlockEntry :=
  if MAX_ENTRIES < entries.size then
    match _hmin : entries.minKey? with
    | none => entries
    | some oldest => evict (entries.erase oldest)
  else entries
termination_by entries.size
decreasing_by exact Highest.size_erase_lt ‹_›

def insert (store : BlockStore) (blockNumber : UInt64) (entry : BlockEntry) : BlockStore :=
  ⟨evict (store.entries.insert blockNumber entry)⟩

theorem evict_eq_trim (entries : ExtTreeMap UInt64 BlockEntry) :
    evict entries = Highest.trim MAX_ENTRIES entries := by
  induction entries using @Highest.trim_induction UInt64 BlockEntry _ _ MAX_ENTRIES with
  | small entries hsize => rw [evict, if_neg (Nat.not_lt.mpr hsize), Highest.trim_of_le hsize]
  | drop entries oldest hsize hmin ih =>
      rw [evict, if_pos hsize, Highest.trim_of_lt hsize hmin, ← ih]
      split
      · next hnone => simp [hmin] at hnone
      · next other hother =>
          rw [hmin] at hother
          rw [Option.some.inj hother]

/-- Whatever is found after an insertion is the new entry or was there before. -/
theorem get_insert {store : BlockStore} {blockNumber n : UInt64} {entry found : BlockEntry}
    (h : (store.insert blockNumber entry).get n = some found) :
    n = blockNumber ∧ found = entry ∨ store.get n = some found := by
  rw [get, insert, evict_eq_trim] at h
  have hinsert := Highest.getElem?_trim h
  rw [ExtTreeMap.getElem?_insert] at hinsert
  split at hinsert
  · next heq =>
      exact .inl ⟨(LawfulEqCmp.eq_of_compare heq).symm, (Option.some.inj hinsert).symm⟩
  · exact .inr hinsert

/-- Below the capacity nothing is dropped. -/
theorem insert_of_lt {store : BlockStore} (hsize : store.entries.size < MAX_ENTRIES)
    (blockNumber : UInt64) (entry : BlockEntry) :
    store.insert blockNumber entry = ⟨store.entries.insert blockNumber entry⟩ := by
  have hle := ExtTreeMap.size_insert_le (t := store.entries) (k := blockNumber) (v := entry)
  rw [insert, evict, if_neg (by omega)]

end BlockStore

section Merkle

variable (keccak : Bytes → B256)

def keccakPair (left right : B256) : B256 := keccak (left.bytes ++ right.bytes)

/-- Hash neighbours, and an odd last element with itself. -/
def nextLayer : List B256 → List B256
  | a :: b :: rest => keccakPair keccak a b :: nextLayer rest
  | [a] => [keccakPair keccak a a]
  | [] => []

theorem nextLayer_length_le (layer : List B256) :
    2 * (nextLayer keccak layer).length ≤ layer.length + 1 := by
  induction layer using nextLayer.induct with
  | case1 a b rest ih =>
      simp only [nextLayer, List.length_cons]
      omega
  | case2 a => simp [nextLayer]
  | case3 => simp [nextLayer]

/-- The loop over the layers. -/
def reduceLayers : List B256 → Option B256
  | [] => none
  | [root] => some root
  | a :: b :: rest => reduceLayers (nextLayer keccak (a :: b :: rest))
termination_by layer => layer.length
decreasing_by
  have := nextLayer_length_le keccak (a :: b :: rest)
  simp only [List.length_cons] at this ⊢
  omega

def calculateMerkleRoot (leaves : List B256) : Option B256 :=
  match leaves with
  | [] => none
  | [leaf] => some leaf
  | leaves => reduceLayers keccak (nextLayer keccak leaves)

/-- Two hashes of the bridge events of a block. -/
structure BridgeHashes where
  withdrawalHash : B256
  depositHash : B256
deriving DecidableEq

def computeLeaf (parentHash blockHash withdrawalHash depositHash : B256) : B256 :=
  keccak (parentHash.bytes ++ blockHash.bytes ++ withdrawalHash.bytes ++ depositHash.bytes)

end Merkle

section Messages

/-- What the enclave returns for a block that it executed, under its signature. -/
structure EthExecutionResponse where
  blockNumber : UInt64
  leaf : B256
  blockHash : B256
  signature : FixedBytes 64
deriving DecidableEq

structure SubmitBatchResponse where
  batchRoot : Bytes
  versionedHashes : List B256
  signature : Bytes
deriving DecidableEq

def executionSignPayload (blockNumber : UInt64) (leaf blockHash : B256) : Bytes :=
  beBytes 8 blockNumber.toNat ++ leaf.bytes ++ blockHash.bytes

/-- `(uint256 chainId, address verifier, bytes32 batchRoot, bytes32[] blobHashes)`. -/
def abiEncodeBatch (l1ChainId : UInt64) (nitroVerifierAddress : FixedBytes 20) (batchRoot : B256)
    (hashes : List B256) : Bytes :=
  (List.replicate 24 0 ++ beBytes 8 l1ChainId.toNat) ++
    (List.replicate 12 0 ++ nitroVerifierAddress.bytes) ++ batchRoot.bytes ++
    (List.replicate 31 0 ++ [0x80]) ++ (List.replicate 24 0 ++ beBytes 8 hashes.length) ++
    hashes.flatMap B256.bytes

theorem executionSignPayload_length (blockNumber : UInt64) (leaf blockHash : B256) :
    (executionSignPayload blockNumber leaf blockHash).length = 72 := by
  simp [executionSignPayload, leaf.length_eq, blockHash.length_eq]

theorem abiEncodeBatch_length (l1ChainId : UInt64) (nitroVerifierAddress : FixedBytes 20)
    (batchRoot : B256) (hashes : List B256) :
    160 ≤ (abiEncodeBatch l1ChainId nitroVerifierAddress batchRoot hashes).length := by
  simp only [abiEncodeBatch, List.length_append, List.length_replicate, beBytes_length,
    nitroVerifierAddress.length_eq, batchRoot.length_eq, List.length_cons, List.length_nil]
  omega

theorem executionSignPayload_inj {n n' : UInt64} {leaf leaf' blockHash blockHash' : B256}
    (h : executionSignPayload n leaf blockHash = executionSignPayload n' leaf' blockHash') :
    n = n' ∧ leaf = leaf' ∧ blockHash = blockHash' := by
  obtain ⟨hhead, hhash⟩ := List.append_inj h (by simp [leaf.length_eq, leaf'.length_eq])
  obtain ⟨hnumber, hleaf⟩ := List.append_inj hhead (by simp)
  refine ⟨?_, B256.ext hleaf, B256.ext hhash⟩
  have hmod := beBytes_inj hnumber
  have hlt := n.toNat_lt
  have hlt' := n'.toNat_lt
  exact UInt64.toNat_inj.mp (by omega)

end Messages

/-- What the enclave uses of other libraries: how to execute a block and how to sign
and verify digests with a key, and the constants of the network it is built for. -/
structure Platform (Input Key : Type) extends BlobLibs where
  execute : Input → Except String (Header × BridgeHashes)
  signDigest : Key → B256 → FixedBytes 64 × UInt8
  verifyDigest : Key → B256 → FixedBytes 64 → Bool
  l1ChainId : UInt64
  nitroVerifierAddress : FixedBytes 20

/-- Why a batch is not signed. -/
inductive SubmitBatchError where
  | invalidSignatures (blocks : List UInt64)
  | range (first last : UInt64)
  | duplicate (blockNumber : UInt64)
  | noLeaves
  | blobs (reason : VerifyError)
deriving DecidableEq

/-- The text of an error that is not about signatures. -/
def SubmitBatchError.message (display : Rlp.DecodeError → String) :
    SubmitBatchError → Option String
  | .invalidSignatures _ => none
  | .range first last => some ("invalid batch range: from (" ++ toString first ++ ") > to (" ++
      toString last ++ ")")
  | .duplicate blockNumber =>
      some ("duplicate block_number " ++ toString blockNumber ++ " in SubmitBatch")
  | .noLeaves => some "no leaves provided"
  | .blobs reason => some (reason.message display)

/-- A request to sign the blocks `first..=last`. -/
structure SubmitBatch where
  first : UInt64
  last : UInt64
  responses : List EthExecutionResponse
  blobs : List Bytes
deriving DecidableEq

/-- The block numbers `first..=last`. -/
def blockRange (first last : UInt64) : List UInt64 :=
  (List.range' first.toNat (last.toNat + 1 - first.toNat)).map UInt64.ofNat

theorem map_toNat_blockRange (first last : UInt64) :
    (blockRange first last).map UInt64.toNat =
      List.range' first.toNat (last.toNat + 1 - first.toNat) := by
  rw [blockRange, List.map_map]
  refine (List.map_congr_left fun n hn => ?_).trans (List.map_id _)
  have hlast := last.toNat_lt
  have hsize : UInt64.size = 2 ^ 64 := rfl
  rw [List.mem_range'_1] at hn
  exact UInt64.toNat_ofNat_of_lt (by omega)

theorem isChain_blockRange (first last : UInt64) :
    (blockRange first last).IsChain fun m n => n.toNat = m.toNat + 1 := by
  have hchain := List.isChain_range' first.toNat (last.toNat + 1 - first.toNat) 1
  rw [← map_toNat_blockRange, List.isChain_map] at hchain
  exact hchain

theorem mem_blockRange {first last n : UInt64} :
    n ∈ blockRange first last ↔ first ≤ n ∧ n ≤ last := by
  rw [← List.mem_map_of_injective (fun _ _ h => UInt64.toNat_inj.mp h), map_toNat_blockRange,
    List.mem_range'_1, UInt64.le_iff_toNat_le, UInt64.le_iff_toNat_le]
  omega

theorem pairwise_blockRange (first last : UInt64) :
    (blockRange first last).Pairwise (· < ·) := by
  have hpairwise := List.pairwise_lt_range' (s := first.toNat) (n := last.toNat + 1 - first.toNat)
  rw [← map_toNat_blockRange, List.pairwise_map] at hpairwise
  exact hpairwise.imp UInt64.lt_iff_toNat_lt.mpr

/-- Responses by block number. A number may occur once. -/
def responseMap (map : ExtTreeMap UInt64 EthExecutionResponse) :
    List EthExecutionResponse →
      Except SubmitBatchError (ExtTreeMap UInt64 EthExecutionResponse)
  | [] => .ok map
  | response :: rest =>
      if map.contains response.blockNumber then .error (.duplicate response.blockNumber)
      else responseMap (map.insert response.blockNumber response) rest

theorem getElem?_responseMap {map result : ExtTreeMap UInt64 EthExecutionResponse}
    {responses : List EthExecutionResponse} (h : responseMap map responses = .ok result)
    {n : UInt64} {response : EthExecutionResponse} (hn : result[n]? = some response) :
    map[n]? = some response ∨ response ∈ responses ∧ response.blockNumber = n := by
  induction responses generalizing map with
  | nil =>
      cases h
      exact .inl hn
  | cons head rest ih =>
      simp only [responseMap] at h
      split at h
      · cases h
      · rcases ih h with hmap | ⟨hmem, hnumber⟩
        · rw [ExtTreeMap.getElem?_insert] at hmap
          split at hmap
          · next heq =>
              cases hmap
              exact .inr ⟨by simp, LawfulEqCmp.eq_of_compare heq⟩
          · exact .inl hmap
        · exact .inr ⟨.tail _ hmem, hnumber⟩

section Submit

variable {Input Key : Type} (p : Platform Input Key) (key : Key)

def verifyResponse (response : EthExecutionResponse) : Bool :=
  p.verifyDigest key (p.sha256
    (executionSignPayload response.blockNumber response.leaf response.blockHash)) response.signature

def signBatch (batchRoot : B256) (versionedHashes : List B256) : SubmitBatchResponse :=
  let encoded := abiEncodeBatch p.l1ChainId p.nitroVerifierAddress batchRoot versionedHashes
  let (signature, recid) := p.signDigest key (p.sha256 encoded)
  ⟨batchRoot.bytes, versionedHashes, signature.bytes ++ [recid + 27]⟩

@[simp] theorem signBatch_batchRoot (batchRoot : B256) (versionedHashes : List B256) :
    (signBatch p key batchRoot versionedHashes).batchRoot = batchRoot.bytes := rfl

/-- A response is preferred over the cached entry; it has to verify. -/
def chooseEntry (map : ExtTreeMap UInt64 EthExecutionResponse) (block : UInt64)
    (cached : Option BlockEntry) : Option BlockEntry :=
  match map[block]? with
  | some response =>
      if verifyResponse p key response then some ⟨response.leaf, response.blockHash⟩ else none
  | none => cached

/-- The root and the blob hashes that are signed for a request, where `cached` was
read from the store for each block of the range. -/
def checkBatch (request : SubmitBatch) (cached : List (Option BlockEntry)) :
    Except SubmitBatchError (B256 × List B256) :=
  if request.last < request.first then .error (.range request.first request.last)
  else match responseMap ∅ request.responses with
    | .error e => .error e
    | .ok map =>
      let blocks := blockRange request.first request.last
      let chosen := List.zipWith (chooseEntry p key map) blocks cached
      let invalidBlocks := ((blocks.zip chosen).filter (·.2.isNone)).map Prod.fst
      if invalidBlocks ≠ [] then .error (.invalidSignatures invalidBlocks)
      else
        let entries := chosen.reduceOption
        match calculateMerkleRoot p.keccak256 (entries.map BlockEntry.leaf) with
        | none => .error .noLeaves
        | some batchRoot => match verifyBlobs p.toBlobLibs request.blobs
            (entries.map BlockEntry.blockHash) with
          | .error e => .error (.blobs e)
          | .ok versionedHashes => .ok (batchRoot, versionedHashes)

def handleSubmitBatch (request : SubmitBatch) (cached : List (Option BlockEntry)) :
    Except SubmitBatchError SubmitBatchResponse :=
  (checkBatch p key request cached).map fun (batchRoot, versionedHashes) =>
    signBatch p key batchRoot versionedHashes

variable {p key}

theorem map_some_reduceOption {α : Type*} {xs : List (Option α)} (h : ∀ x ∈ xs, x.isSome) :
    xs.reduceOption.map some = xs := by
  induction xs with
  | nil => rfl
  | cons x xs ih =>
      obtain ⟨a, rfl⟩ := Option.isSome_iff_exists.mp (h x (by simp))
      rw [List.reduceOption_cons_of_some, List.map_cons,
        ih fun y hy => h y (.tail _ hy)]

/-- No block is reported exactly if each has an entry. -/
theorem isSome_of_no_invalid {blocks : List UInt64} {chosen : List (Option BlockEntry)}
    (hlength : chosen.length ≤ blocks.length)
    (h : ((blocks.zip chosen).filter (·.2.isNone)).map Prod.fst = []) :
    ∀ x ∈ chosen, x.isSome := by
  intro x hx
  obtain ⟨n, hn⟩ : ∃ n, (n, x) ∈ blocks.zip chosen := by
    rw [← List.map_snd_zip hlength] at hx
    obtain ⟨⟨n, _⟩, hmem, rfl⟩ := List.mem_map.mp hx
    exact ⟨n, hmem⟩
  have hnil := List.filter_eq_nil_iff.mp (List.map_eq_nil_iff.mp h) (n, x) hn
  cases x with
  | none => exact absurd rfl hnil
  | some entry => rfl

/-- What it takes for a request to be signed. -/
theorem checkBatch_ok {request : SubmitBatch} {get : UInt64 → Option BlockEntry}
    {batchRoot : B256} {versionedHashes : List B256}
    (h : checkBatch p key request ((blockRange request.first request.last).map get) =
      .ok (batchRoot, versionedHashes)) :
    request.first ≤ request.last ∧ ∃ map, ∃ entries : List BlockEntry,
      responseMap ∅ request.responses = .ok map ∧
      (blockRange request.first request.last).map (fun n => chooseEntry p key map n (get n)) =
        entries.map some ∧
      calculateMerkleRoot p.keccak256 (entries.map BlockEntry.leaf) = some batchRoot ∧
      verifyBlobs p.toBlobLibs request.blobs (entries.map BlockEntry.blockHash) =
        .ok versionedHashes := by
  unfold checkBatch at h
  split at h
  · cases h
  · next hrange =>
      split at h
      · cases h
      · next map hmap =>
          have hchosen : List.zipWith (chooseEntry p key map)
              (blockRange request.first request.last)
              ((blockRange request.first request.last).map get) =
              (blockRange request.first request.last).map
                fun n => chooseEntry p key map n (get n) := by
            rw [List.zipWith_map_right, List.zipWith_self]
          simp only [hchosen] at h
          split at h
          · cases h
          · next hvalid =>
              have hsome := isSome_of_no_invalid (by simp) (not_not.mp hvalid)
              split at h
              · cases h
              · next root hroot =>
                  split at h
                  · cases h
                  · next hashes hverify =>
                      cases h
                      exact ⟨UInt64.not_lt.mp hrange, map, _, hmap,
                        (map_some_reduceOption hsome).symm, hroot, hverify⟩

end Submit

end FluentStf.Nitro
