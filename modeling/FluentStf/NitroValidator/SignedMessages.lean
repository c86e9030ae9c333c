import FluentStf.Cbor
import FluentStf.Nitro.Batch

/-! The messages that are signed: blocks and batches by the enclave's key, the attestation
document by the key of the leaf certificate. -/
namespace FluentStf.NitroValidator

open Nitro

/-- The shortest head for the argument. -/
def pushCborHead (out : Bytes) (major : UInt8) (arg : UInt64) : Bytes :=
  let ibHi := major <<< 5
  let n := arg.toNat
  if n < 24 then out ++ [ibHi ||| UInt8.ofNat n]
  else if n ≤ 0xff then out ++ [ibHi ||| 24] ++ [UInt8.ofNat n]
  else if n ≤ 0xffff then out ++ [ibHi ||| 25] ++ beBytes 2 n
  else if n ≤ 0xffffffff then out ++ [ibHi ||| 26] ++ beBytes 4 n
  else out ++ [ibHi ||| 27] ++ beBytes 8 n

/-- `Sig_structure = ["Signature1", protected, h'', payload]`. -/
def buildSigStructure (protectedHeader payload : Bytes) : Bytes :=
  let out : Bytes := [0x84]
  -- "Signature1" as a text string of ten bytes
  let out := out ++ [0x6a, 0x53, 0x69, 0x67, 0x6e, 0x61, 0x74, 0x75, 0x72, 0x65, 0x31]
  let out := pushCborHead out 2 (UInt64.ofNat protectedHeader.length)
  let out := out ++ protectedHeader
  let out := out ++ [0x40]
  let out := pushCborHead out 2 (UInt64.ofNat payload.length)
  out ++ payload

theorem ibHi_or (major : Fin 8) (info : Fin 32) :
    UInt8.ofNat major <<< 5 ||| UInt8.ofNat info = Cbor.initialByte major info := by
  revert major info
  decide +kernel

theorem pushCborHead_append (out : Bytes) (major : UInt8) (arg : UInt64) :
    pushCborHead out major arg = out ++ pushCborHead [] major arg := by
  simp only [pushCborHead]
  split_ifs <;> simp

/-- At every width the pushed bytes are a head for the argument. -/
theorem isHead_pushCborHead (major : Fin 8) (arg : UInt64) :
    Cbor.IsHead major arg.toNat (pushCborHead [] (UInt8.ofNat major) arg) := by
  have hwide : ∀ i : Fin 4, arg.toNat < 256 ^ 2 ^ i.val → Cbor.IsHead major arg.toNat
      ([] ++ [UInt8.ofNat major <<< 5 ||| UInt8.ofNat (24 + i)] ++
        beBytes (2 ^ i.val) arg.toNat) := by
    intro i harg
    rw [ibHi_or major ⟨24 + i, by omega⟩]
    exact .wide i.val i.isLt harg
  have hlt := arg.toNat_lt
  simp only [pushCborHead]
  split
  · next htiny =>
      rw [ibHi_or major ⟨arg.toNat, by omega⟩]
      exact .tiny htiny
  · split
    · next hone =>
        rw [← beBytes_one]
        exact hwide 0 (by simpa using Nat.lt_succ_of_le hone)
    · split
      · next htwo => exact hwide 1 (by simpa using Nat.lt_succ_of_le htwo)
      · split
        · next hfour => exact hwide 2 (by simpa using Nat.lt_succ_of_le hfour)
        · exact hwide 3 (by simpa using hlt)

/-- The head of a byte string says how long it is. -/
theorem isHead_length {bytes : Bytes} (h : bytes.length < 2 ^ 64) :
    Cbor.IsHead 2 bytes.length (pushCborHead [] 2 (UInt64.ofNat bytes.length)) := by
  have hhead := isHead_pushCborHead 2 (UInt64.ofNat bytes.length)
  rwa [UInt64.toNat_ofNat_of_lt' h] at hhead

/-- The two strings of the structure, each behind its head. -/
theorem buildSigStructure_eq (protectedHeader payload : Bytes) :
    buildSigStructure protectedHeader payload =
      [0x84, 0x6a, 0x53, 0x69, 0x67, 0x6e, 0x61, 0x74, 0x75, 0x72, 0x65, 0x31] ++
        (pushCborHead [] 2 (UInt64.ofNat protectedHeader.length) ++ (protectedHeader ++
          ([0x40] ++ (pushCborHead [] 2 (UInt64.ofNat payload.length) ++ payload)))) := by
  rw [buildSigStructure, pushCborHead_append _ 2 (UInt64.ofNat payload.length),
    pushCborHead_append _ 2 (UInt64.ofNat protectedHeader.length)]
  simp only [List.append_assoc, List.cons_append, List.nil_append]

/-- The text `Signature1`. -/
def signature1 : Bytes := [0x53, 0x69, 0x67, 0x6e, 0x61, 0x74, 0x75, 0x72, 0x65, 0x31]

/-- The structure as a CBOR item. The second byte string is for data from outside, of which there
is none. -/
def sigStructure (protectedHeader payload : Bytes) : Cbor.Item :=
  .array [.text signature1, .bytes protectedHeader, .bytes [], .bytes payload]

/-- The bytes that are signed are an encoding of the structure, as long as the lengths of its
strings are 64-bit numbers. -/
theorem encodes_buildSigStructure {protectedHeader payload : Bytes}
    (hprotected : protectedHeader.length < 2 ^ 64) (hpayload : payload.length < 2 ^ 64) :
    Cbor.Encodes (sigStructure protectedHeader payload)
      (buildSigStructure protectedHeader payload) := by
  have htext : Cbor.Encodes (.text signature1) (0x6a :: signature1) :=
    .text (.whole (.tiny (by decide)))
  have hnone : Cbor.Encodes (.bytes []) [0x40] := .bytes (.whole (.tiny (by decide)))
  have hstring : ∀ {bytes : Bytes}, bytes.length < 2 ^ 64 → Cbor.Encodes (.bytes bytes)
      (pushCborHead [] 2 (UInt64.ofNat bytes.length) ++ bytes) := fun h =>
    .bytes (.whole (isHead_length h))
  have harray := @Cbor.Encodes.array [(_, _), (_, _), (_, _), (_, _)] _
    (by simpa using ⟨htext, hstring hprotected, hnone, hstring hpayload⟩)
    (.counted (.tiny (by simp)))
  rw [buildSigStructure_eq]
  simpa [sigStructure, Cbor.initialByte, signature1] using harray

theorem buildSigStructure_inj {protectedHeader protectedHeader' payload payload' : Bytes}
    (hprotected : protectedHeader.length < 2 ^ 64) (hprotected' : protectedHeader'.length < 2 ^ 64)
    (hpayload : payload.length < 2 ^ 64) (hpayload' : payload'.length < 2 ^ 64)
    (h : buildSigStructure protectedHeader payload =
      buildSigStructure protectedHeader' payload') :
    protectedHeader = protectedHeader' ∧ payload = payload' := by
  rw [buildSigStructure_eq, buildSigStructure_eq] at h
  obtain ⟨-, hlength, hstring⟩ := (isHead_length hprotected).unique (by decide) (by decide)
    (isHead_length hprotected') (List.append_cancel_left h)
  obtain ⟨hsame, hsecond⟩ := List.append_inj hstring hlength
  obtain ⟨-, -, hrest⟩ := (isHead_length hpayload).unique (by decide) (by decide)
    (isHead_length hpayload') (List.append_cancel_left hsecond)
  exact ⟨hsame, hrest⟩

/-- Words of 32 bytes one after the other. -/
theorem flatMap_bytes_inj {hashes hashes' : List B256}
    (h : hashes.flatMap B256.bytes = hashes'.flatMap B256.bytes) : hashes = hashes' := by
  induction hashes generalizing hashes' with
  | nil =>
      cases hashes' with
      | nil => rfl
      | cons b hashes' =>
          have hlength := congrArg List.length h
          rw [List.flatMap_nil, List.flatMap_cons, List.length_append, b.length_eq] at hlength
          exact absurd hlength (by rw [List.length_nil]; omega)
  | cons a hashes ih =>
      cases hashes' with
      | nil =>
          have hlength := congrArg List.length h
          rw [List.flatMap_nil, List.flatMap_cons, List.length_append, a.length_eq] at hlength
          exact absurd hlength (by rw [List.length_nil]; omega)
      | cons b hashes' =>
          rw [List.flatMap_cons, List.flatMap_cons] at h
          obtain ⟨hfirst, hrest⟩ := List.append_inj h (a.length_eq.trans b.length_eq.symm)
          rw [B256.ext hfirst, ih hrest]

theorem abiEncodeBatch_inj {l1ChainId : UInt64} {nitroVerifierAddress : FixedBytes 20}
    {batchRoot batchRoot' : B256} {hashes hashes' : List B256}
    (h : abiEncodeBatch l1ChainId nitroVerifierAddress batchRoot hashes =
      abiEncodeBatch l1ChainId nitroVerifierAddress batchRoot' hashes') :
    batchRoot = batchRoot' ∧ hashes = hashes' := by
  simp only [abiEncodeBatch, List.append_assoc, List.append_cancel_left_eq] at h
  obtain ⟨hroot, hrest⟩ := List.append_inj h (batchRoot.length_eq.trans batchRoot'.length_eq.symm)
  have hhashes := (List.append_inj (List.append_cancel_left (List.append_cancel_left
    (List.append_cancel_left hrest))) (by simp)).2
  exact ⟨B256.ext hroot, flatMap_bytes_inj hhashes⟩

/-- Two signed messages are equal only if they say the same: batches with the same root and
blobs, blocks with the same number, leaf and hash, attestations with the same protected
header and payload. A message about a batch is never one about a block. -/
theorem signed_messages_unambiguous :
    (∀ (l1ChainId : UInt64) (nitroVerifierAddress : FixedBytes 20) (root root' : B256)
      (hashes hashes' : List B256), hashes.length < 2 ^ 64 → hashes'.length < 2 ^ 64 →
      abiEncodeBatch l1ChainId nitroVerifierAddress root hashes =
        abiEncodeBatch l1ChainId nitroVerifierAddress root' hashes' →
      root = root' ∧ hashes = hashes') ∧
    (∀ (n n' : UInt64) (leaf leaf' blockHash blockHash' : B256),
      executionSignPayload n leaf blockHash = executionSignPayload n' leaf' blockHash' →
      n = n' ∧ leaf = leaf' ∧ blockHash = blockHash') ∧
    (∀ (l1ChainId : UInt64) (nitroVerifierAddress : FixedBytes 20) (root : B256)
      (hashes : List B256) (n : UInt64) (leaf blockHash : B256),
      abiEncodeBatch l1ChainId nitroVerifierAddress root hashes ≠
        executionSignPayload n leaf blockHash) ∧
    (∀ protectedHeader protectedHeader' payload payload' : Bytes,
      protectedHeader.length < 2 ^ 64 → protectedHeader'.length < 2 ^ 64 →
      payload.length < 2 ^ 64 → payload'.length < 2 ^ 64 →
      buildSigStructure protectedHeader payload = buildSigStructure protectedHeader' payload' →
      protectedHeader = protectedHeader' ∧ payload = payload') := by
  refine ⟨?_, ?_, ?_, ?_⟩
  · intro l1ChainId nitroVerifierAddress root root' hashes hashes' _ _ h
    exact abiEncodeBatch_inj h
  · intro n n' leaf leaf' blockHash blockHash' h
    exact executionSignPayload_inj h
  · intro l1ChainId nitroVerifierAddress root hashes n leaf blockHash h
    have hbatch := abiEncodeBatch_length l1ChainId nitroVerifierAddress root hashes
    rw [h, executionSignPayload_length] at hbatch
    omega
  · intro protectedHeader protectedHeader' payload payload' hp hp' hq hq' h
    exact buildSigStructure_inj hp hp' hq hq' h

/-- A batch with one blob and a batch without one, a block, and two attestations whose
protected headers lie on the two sides of a head width. -/
theorem signed_messages_sample :
    abiEncodeBatch 1 ⟨List.replicate 20 0, rfl⟩ .zero [.zero] ≠
      abiEncodeBatch 1 ⟨List.replicate 20 0, rfl⟩ .zero [] ∧
    executionSignPayload 1 .zero .zero ≠ executionSignPayload 2 .zero .zero ∧
    buildSigStructure (List.replicate 23 0) [] ≠ buildSigStructure (List.replicate 24 0) [] := by
  obtain ⟨hbatch, hblock, -, hsig⟩ := signed_messages_unambiguous
  refine ⟨?_, ?_, ?_⟩
  · intro h
    have hsame := (hbatch _ _ _ _ _ _ (by decide) (by decide) h).2
    cases hsame
  · intro h
    exact absurd (hblock _ _ _ _ _ _ h).1 (by decide)
  · intro h
    have hsame := (hsig _ _ _ _ (by simp) (by simp) (by simp) (by simp) h).1
    exact absurd (congrArg List.length hsame) (by simp)

end FluentStf.NitroValidator
