import FluentStf.Nitro.Batch

/-! Which blocks of a batch the enclave reports as not signed. A response in the
request hides the entry that the store has for the block, also when the response
does not verify. -/
namespace FluentStf.Nitro

open Blob Std

theorem exists_responseMap (map : ExtTreeMap UInt64 EthExecutionResponse)
    {responses : List EthExecutionResponse}
    (hdistinct : (responses.map EthExecutionResponse.blockNumber).Nodup)
    (hnew : ∀ response ∈ responses, response.blockNumber ∉ map) :
    ∃ result, responseMap map responses = .ok result ∧ ∀ n response,
      result[n]? = some response ↔
        map[n]? = some response ∨ response ∈ responses ∧ response.blockNumber = n := by
  induction responses generalizing map with
  | nil => exact ⟨map, rfl, by simp⟩
  | cons head rest ih =>
      simp only [List.map_cons, List.nodup_cons, List.mem_map, not_exists, not_and] at hdistinct
      have hhead : head.blockNumber ∉ map := hnew head (by simp)
      have hrest : ∀ response ∈ rest,
          response.blockNumber ∉ map.insert head.blockNumber head := by
        intro response hresponse hmem
        rcases ExtTreeMap.mem_insert.mp hmem with heq | hmem
        · exact hdistinct.1 response hresponse (LawfulEqCmp.eq_of_compare heq).symm
        · exact hnew response (.tail _ hresponse) hmem
      obtain ⟨result, hresult, hget⟩ := ih _ hdistinct.2 hrest
      refine ⟨result, ?_, fun n response => ?_⟩
      · rw [responseMap, if_neg (by simpa using hhead), hresult]
      · rw [hget, ExtTreeMap.getElem?_insert]
        split
        · next heq =>
            obtain rfl := LawfulEqCmp.eq_of_compare heq
            have hnone : map[head.blockNumber]? = none := ExtTreeMap.getElem?_eq_none hhead
            simp only [hnone, Option.some.injEq, List.mem_cons, reduceCtorEq, false_or]
            constructor
            · rintro (rfl | ⟨hmem, hn⟩)
              · exact ⟨.inl rfl, rfl⟩
              · exact ⟨.inr hmem, hn⟩
            · rintro ⟨rfl | hmem, hn⟩
              · exact .inl rfl
              · exact .inr ⟨hmem, hn⟩
        · next hne =>
            have hother : head.blockNumber ≠ n := by
              rintro rfl
              exact hne (by simp)
            simp only [List.mem_cons]
            constructor
            · rintro (hmap | ⟨hmem, hn⟩)
              · exact .inl hmap
              · exact .inr ⟨.inr hmem, hn⟩
            · rintro (hmap | ⟨rfl | hmem, hn⟩)
              · exact .inl hmap
              · exact absurd hn hother
              · exact .inr ⟨hmem, hn⟩

theorem map_fst_filter_zip {α β : Type*} (f : α → Option β) (xs : List α) :
    ((xs.zip (xs.map f)).filter (·.2.isNone)).map Prod.fst = xs.filter fun x => (f x).isNone := by
  rw [← List.map_prod_left_eq_zip, List.filter_map, List.map_map]
  exact List.map_id _

section

variable {Input Key : Type} (p : Platform Input Key) (key : Key)

/-- The answer to a request when the store is as given. -/
def submitBatch (store : BlockStore) (request : SubmitBatch) :
    Except SubmitBatchError SubmitBatchResponse :=
  handleSubmitBatch p key request ((blockRange request.first request.last).map store.get)

/-- A block of the range that is neither in the store nor in a response of the request
that verifies. -/
def Missing (store : BlockStore) (request : SubmitBatch) (n : UInt64) : Prop :=
  request.first ≤ n ∧ n ≤ request.last ∧ store.get n = none ∧
    ¬∃ response ∈ request.responses, response.blockNumber = n ∧ verifyResponse p key response

/-- The blocks that are reported are the missing ones, each once and in order. -/
def ReportsMissing (store : BlockStore) (request : SubmitBatch) : Prop :=
  ((∃ blocks, submitBatch p key store request = .error (.invalidSignatures blocks)) ↔
    ∃ n, Missing p key store request n) ∧
  ∀ blocks, submitBatch p key store request = .error (.invalidSignatures blocks) →
    blocks.Pairwise (· < ·) ∧ ∀ n, n ∈ blocks ↔ Missing p key store request n

/-- A response for the block that does not verify. -/
def Refused (request : SubmitBatch) (n : UInt64) : Prop :=
  ∃ response ∈ request.responses, response.blockNumber = n ∧ ¬verifyResponse p key response

variable {p key}

/-- The blocks for which no entry is chosen. -/
def unchosen (p : Platform Input Key) (key : Key) (store : BlockStore) (request : SubmitBatch)
    (map : ExtTreeMap UInt64 EthExecutionResponse) : List UInt64 :=
  (blockRange request.first request.last).filter
    fun n => (chooseEntry p key map n (store.get n)).isNone

variable {request : SubmitBatch} {store : BlockStore}

theorem submitBatch_invalid {map : ExtTreeMap UInt64 EthExecutionResponse}
    {blocks : List UInt64} (hrange : request.first ≤ request.last)
    (hmap : responseMap ∅ request.responses = .ok map) :
    submitBatch p key store request = .error (.invalidSignatures blocks) ↔
      blocks ≠ [] ∧ blocks = unchosen p key store request map := by
  unfold submitBatch handleSubmitBatch checkBatch
  rw [if_neg (UInt64.not_lt.mpr hrange), hmap]
  simp only [List.zipWith_map_right, List.zipWith_self, map_fst_filter_zip]
  rw [← unchosen]
  split
  · next hinvalid =>
      simp only [Except.map, Except.error.injEq, SubmitBatchError.invalidSignatures.injEq]
      constructor
      · rintro rfl
        exact ⟨hinvalid, rfl⟩
      · rintro ⟨-, rfl⟩
        rfl
  · next hvalid =>
      constructor
      · intro h
        split at h
        · cases h
        · split at h <;> cases h
      · rintro ⟨hne, rfl⟩
        exact absurd hne hvalid

/-- No entry is chosen for a block whose response is refused, and otherwise for a
block that is missing. -/
theorem mem_unchosen {map : ExtTreeMap UInt64 EthExecutionResponse} {n : UInt64}
    (hget : ∀ n response, map[n]? = some response ↔
      response ∈ request.responses ∧ response.blockNumber = n) :
    n ∈ unchosen p key store request map ↔ (request.first ≤ n ∧ n ≤ request.last) ∧
      (Refused p key request n ∨ Missing p key store request n) := by
  rw [unchosen, List.mem_filter, mem_blockRange]
  refine and_congr_right fun ⟨hfirst, hlast⟩ => ?_
  unfold chooseEntry
  cases hresponse : map[n]? with
  | none =>
      have hno : ∀ response ∈ request.responses, response.blockNumber ≠ n := by
        intro response hmem hn
        rw [(hget n response).mpr ⟨hmem, hn⟩] at hresponse
        cases hresponse
      have hrefused : ¬Refused p key request n := by
        rintro ⟨response, hmem, hn, -⟩
        exact hno response hmem hn
      rw [Option.isNone_iff_eq_none, or_iff_right hrefused]
      constructor
      · intro hnone
        refine ⟨hfirst, hlast, hnone, ?_⟩
        rintro ⟨response, hmem, hn, -⟩
        exact hno response hmem hn
      · exact fun hmissing => hmissing.2.2.1
  | some response =>
      obtain ⟨hmem, hn⟩ := (hget n response).mp hresponse
      have honly : ∀ other ∈ request.responses, other.blockNumber = n → other = response := by
        intro other hother hnumber
        rw [(hget n other).mpr ⟨hother, hnumber⟩, Option.some.injEq] at hresponse
        exact hresponse
      simp only
      split
      · next hverify =>
          simp only [Option.isNone_some, Bool.false_eq_true, false_iff, not_or]
          constructor
          · rintro ⟨other, hother, hnumber, hrefused⟩
            rw [honly other hother hnumber] at hrefused
            exact hrefused hverify
          · exact fun hmissing => hmissing.2.2.2 ⟨response, hmem, hn, hverify⟩
      · next hverify =>
          simp only [Option.isNone_none, true_iff]
          exact .inl ⟨response, hmem, hn, hverify⟩

/-- With one response for a block, a refused response is no answer. -/
theorem missing_of_refused {n : UInt64}
    (hdistinct : (request.responses.map EthExecutionResponse.blockNumber).Nodup)
    (hfirst : request.first ≤ n) (hlast : n ≤ request.last) (hnone : store.get n = none)
    (hrefused : Refused p key request n) : Missing p key store request n := by
  obtain ⟨response, hmem, hn, hverify⟩ := hrefused
  refine ⟨hfirst, hlast, hnone, ?_⟩
  rintro ⟨other, hother, hnumber, hverify'⟩
  rw [List.inj_on_of_nodup_map hdistinct hother hmem (hnumber.trans hn.symm)] at hverify'
  exact hverify hverify'

/-- The report is right exactly if no block that is in the store comes with a response
that does not verify. -/
theorem reports_missing_iff {store : BlockStore} {request : SubmitBatch}
    (hrange : request.first ≤ request.last)
    (hdistinct : (request.responses.map EthExecutionResponse.blockNumber).Nodup) :
    ReportsMissing p key store request ↔
      ∀ n, request.first ≤ n → n ≤ request.last → store.get n ≠ none →
        ∀ response ∈ request.responses, response.blockNumber = n →
          verifyResponse p key response := by
  obtain ⟨map, hmap, hget⟩ := exists_responseMap ∅ hdistinct (by simp)
  simp only [ExtTreeMap.getElem?_empty, reduceCtorEq, false_or] at hget
  constructor
  · rintro ⟨-, hlist⟩ n hfirst hlast hstored response hresponse hn
    by_contra hverify
    have hn' : n ∈ unchosen p key store request map :=
      (mem_unchosen hget).mpr ⟨⟨hfirst, hlast⟩, .inl ⟨response, hresponse, hn, hverify⟩⟩
    obtain ⟨-, hmissing⟩ := hlist _
      ((submitBatch_invalid hrange hmap).mpr ⟨List.ne_nil_of_mem hn', rfl⟩)
    exact hstored ((hmissing n).mp hn').2.2.1
  · intro hverified
    have hmissing : ∀ n, n ∈ unchosen p key store request map ↔ Missing p key store request n := by
      intro n
      rw [mem_unchosen hget]
      constructor
      · rintro ⟨⟨hfirst, hlast⟩, hrefused | hmissing⟩
        · refine missing_of_refused hdistinct hfirst hlast ?_ hrefused
          obtain ⟨response, hresponse, hn, hverify⟩ := hrefused
          by_contra hstored
          exact hverify (hverified n hfirst hlast hstored response hresponse hn)
        · exact hmissing
      · exact fun hmissing => ⟨⟨hmissing.1, hmissing.2.1⟩, .inr hmissing⟩
    refine ⟨⟨?_, ?_⟩, ?_⟩
    · rintro ⟨blocks, h⟩
      obtain ⟨hne, rfl⟩ := (submitBatch_invalid hrange hmap).mp h
      obtain ⟨n, hn⟩ := List.exists_mem_of_ne_nil _ hne
      exact ⟨n, (hmissing n).mp hn⟩
    · rintro ⟨n, hn⟩
      exact ⟨_, (submitBatch_invalid hrange hmap).mpr
        ⟨List.ne_nil_of_mem ((hmissing n).mpr hn), rfl⟩⟩
    · intro blocks h
      obtain ⟨-, rfl⟩ := (submitBatch_invalid hrange hmap).mp h
      exact ⟨(pairwise_blockRange _ _).filter _, hmissing⟩

end

section Sample

/-- The digest of what is signed for block 1. -/
def digestOfOne : B256 :=
  .ofNat 0x33a49b9f6a56c16cb6f0d5fdb3167a63c62af6c8a84eec3bfdad9079048caf9c

/-- A platform that accepts one signature, for block 1. -/
def platformOfOne : Platform Unit Unit where
  keccak256 := tableHash
    [([], .ofNat 0xc5d2460186f7233c927e7db2dcc703c0e500b653ca82273b7bfad8045d85a470)]
  sha256 := tableHash [(executionSignPayload 1 (.ofNat 1) (.ofNat 2), digestOfOne)]
  decompress _ := .error ""
  blobToKzgCommitment _ := .error ""
  execute _ := .error ""
  signDigest _ _ := (.zero 64, 0)
  verifyDigest _ digest signature := decide (digest = digestOfOne ∧ signature = .zero 64)
  l1ChainId := 1
  nitroVerifierAddress := .zero 20

/-- A signature that is not accepted. -/
def ones : FixedBytes 64 := ⟨List.replicate 64 1, by simp⟩

def entryOfOne : BlockEntry := ⟨B256.ofNat 1, B256.ofNat 2⟩

/-- Block 1 is in the store. -/
def storeOfOne : BlockStore := BlockStore.new.insert 1 entryOfOne

/-- Block 1 with a response for it, under a signature. -/
def requestOfOne (signature : FixedBytes 64) : SubmitBatch :=
  ⟨1, 1, [⟨1, B256.ofNat 1, B256.ofNat 2, signature⟩], []⟩

theorem get_storeOfOne : storeOfOne.get 1 = some entryOfOne := by
  rw [storeOfOne, BlockStore.insert_of_lt (by decide)]
  simp [BlockStore.get]

theorem reports_missing_signed :
    ReportsMissing platformOfOne () storeOfOne (requestOfOne (.zero 64)) :=
  (reports_missing_iff (by decide) (by decide)).mpr (by
    intro n _ _ _ response hresponse _
    rw [List.mem_singleton.mp hresponse]
    decide +kernel)

/-- A block of the store is reported, since the response that came with it does not
verify. -/
theorem stored_block_reported :
    storeOfOne.get 1 = some entryOfOne ∧
      submitBatch platformOfOne () storeOfOne (requestOfOne ones) =
        .error (.invalidSignatures [1]) ∧
      ¬ReportsMissing platformOfOne () storeOfOne (requestOfOne ones) := by
  have hrange : blockRange 1 1 = [1] := by decide
  have hverify : verifyResponse platformOfOne () ⟨1, B256.ofNat 1, B256.ofNat 2, ones⟩ =
      false := by decide +kernel
  have hsubmit : submitBatch platformOfOne () storeOfOne (requestOfOne ones) =
      .error (.invalidSignatures [1]) := by
    simp [submitBatch, handleSubmitBatch, checkBatch, requestOfOne, hrange, responseMap,
      chooseEntry, hverify, Except.map]
  refine ⟨get_storeOfOne, hsubmit, fun h => ?_⟩
  have hnone : storeOfOne.get 1 = none := (((h.2 _ hsubmit).2 1).mp (by simp)).2.2.1
  rw [get_storeOfOne] at hnone
  cases hnone

end Sample

end FluentStf.Nitro
