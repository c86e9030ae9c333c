import FluentStf.Mpt.RootHash
import FluentStf.Rlp.Decoding

/-! The root that a header commits its transactions with: the hash of the trie that
has every transaction under the encoding of its index. -/
namespace FluentStf.Mpt

open Radix

/-- Insertions of the transactions, the first one under the given index. -/
def orderedCalls : Nat → List Bytes → List Call
  | _, [] => []
  | index, tx :: txs => .insert (Rlp.encodeNat index) tx :: orderedCalls (index + 1) txs

def orderedTrie (txs : List Bytes) : MptNode := trieOf (orderedCalls 0 txs)

/-- The transactions root of a block with these transaction envelopes. -/
def transactionsRoot (keccak : Bytes → B256) (txs : List Bytes) : B256 :=
  (orderedTrie txs).hash keccak

theorem toBigEndian_index_length {i : Nat} (h : i < 2 ^ 64) : (Rlp.toBigEndian i).length ≤ 8 :=
  Rlp.toBigEndian_length_le i 8 (by simpa using h)

theorem encodeNat_inj {i j : Nat} (hi : i < 2 ^ 64) (hj : j < 2 ^ 64)
    (h : Rlp.encodeNat i = Rlp.encodeNat j) : i = j := by
  have hilength := toBigEndian_index_length hi
  have hjlength := toBigEndian_index_length hj
  exact Rlp.toBigEndian_inj (Rlp.encodeBytes_inj (by omega) (by omega) h)

/-- Encoded indices are items, so none is a proper initial part of another. -/
theorem prefixFree_indices : PrefixFree {key | ∃ i < 2 ^ 64, Rlp.encodeNat i = key} := by
  rintro _ ⟨i, hi, rfl⟩ _ ⟨j, hj, rfl⟩ ⟨rest, hrest⟩
  have hilength := toBigEndian_index_length hi
  have hjlength := toBigEndian_index_length hj
  have hiitem := Rlp.encodeBytes_isItem (Rlp.toBigEndian i) (by omega)
  have hjitem := Rlp.encodeBytes_isItem (Rlp.toBigEndian j) (by omega)
  exact (hiitem.append_inj hjitem (hrest.trans (List.append_nil _).symm)).1

variable {txs : List Bytes}

theorem mem_orderedCalls {index : Nat} {call : Call} (h : call ∈ orderedCalls index txs) :
    ∃ i tx, call = .insert (Rlp.encodeNat i) tx ∧ i < index + txs.length ∧ tx ∈ txs := by
  induction txs generalizing index with
  | nil => cases h
  | cons first txs ih =>
      rw [orderedCalls, List.mem_cons] at h
      rcases h with rfl | h
      · exact ⟨index, first, rfl, by simp, by simp⟩
      · obtain ⟨i, tx, hcall, hi, htx⟩ := ih h
        refine ⟨i, tx, hcall, ?_, .tail _ htx⟩
        rw [List.length_cons]
        omega

/-- Every transaction is found under its index, and nothing else is changed. -/
theorem applyCalls_orderedCalls {index i : Nat} (contents : Bytes → Option Bytes) (hi : i < 2 ^ 64)
    (hindex : index + txs.length ≤ 2 ^ 64) :
    applyCalls contents (orderedCalls index txs) (Rlp.encodeNat i) =
      (if index ≤ i then txs[i - index]? else none).or (contents (Rlp.encodeNat i)) := by
  induction txs generalizing index contents with
  | nil => simp [orderedCalls, applyCalls]
  | cons first txs ih =>
      rw [List.length_cons] at hindex
      have hstep : applyCalls contents (orderedCalls index (first :: txs)) =
          applyCalls (Function.update contents (Rlp.encodeNat index) (some first))
            (orderedCalls (index + 1) txs) := rfl
      rw [hstep, ih _ (by omega)]
      by_cases hsame : i = index
      · subst hsame
        simp
      · have hkey : Rlp.encodeNat i ≠ Rlp.encodeNat index :=
          fun h => hsame (encodeNat_inj hi (by omega) h)
        rw [Function.update_of_ne hkey]
        by_cases hlater : index + 1 ≤ i
        · rw [if_pos hlater, if_pos (by omega), show i - index = i - (index + 1) + 1 by omega,
            List.getElem?_cons_succ]
        · rw [if_neg hlater, if_neg (by omega)]

theorem contentsOf_orderedCalls {i : Nat} (hi : i < 2 ^ 64) (hlength : txs.length ≤ 2 ^ 64) :
    contentsOf (orderedCalls 0 txs) (Rlp.encodeNat i) = txs[i]? := by
  rw [contentsOf, applyCalls_orderedCalls _ hi (by omega)]
  simp

/-- Transactions as they can be in a block: none is empty, and all fit in a vector. -/
structure ValidTransactions (txs : List Bytes) : Prop where
  ne_nil : ∀ tx ∈ txs, tx ≠ []
  fits : ∀ tx ∈ txs, tx.length < 2 ^ 63
  length_lt : txs.length < 2 ^ 64

theorem orderedTrie_represents (h : ValidTransactions txs) :
    ∃ t, orderedTrie txs = toNode t ∧ Represents t (contentsOf (orderedCalls 0 txs)) ∧ Fits t := by
  have hcalls : ∀ call ∈ orderedCalls 0 txs, (call.Allowed ∧
      call.key ∈ {key | ∃ i < 2 ^ 64, Rlp.encodeNat i = key}) ∧ call.Fits := by
    intro call hcall
    obtain ⟨i, tx, rfl, hi, htx⟩ := mem_orderedCalls hcall
    have hlength := h.length_lt
    have hindex : i < 2 ^ 64 := by omega
    have hdigits := toBigEndian_index_length hindex
    have hkey := Rlp.encodeBytes_length_le (Rlp.toBigEndian i) (by omega)
    refine ⟨⟨h.ne_nil tx htx, i, hindex, rfl⟩, ?_, h.fits tx htx⟩
    rw [Rlp.encodeNat]
    omega
  obtain ⟨t, ht, hmap⟩ :=
    trieOf_represents _ prefixFree_indices fun call hcall => (hcalls call hcall).1
  exact ⟨t, ht, hmap, hmap.fits fun call hcall => (hcalls call hcall).2⟩

/-- The transactions root commits to the transactions, in their order. -/
theorem transactionsRoot_inj {keccak : Bytes → B256} {others : List Bytes}
    (htxs : ValidTransactions txs) (hothers : ValidTransactions others)
    (hempty : keccak [EMPTY_STRING_CODE] = EMPTY_ROOT)
    (hinj : Set.InjOn keccak {encoded |
      encoded ∈ (orderedTrie txs).encodings keccak ++ (orderedTrie others).encodings keccak})
    (hroot : transactionsRoot keccak txs = transactionsRoot keccak others) : txs = others := by
  obtain ⟨s, hs, hsmap, _⟩ := orderedTrie_represents htxs
  obtain ⟨t, ht, htmap, htfits⟩ := orderedTrie_represents hothers
  rw [transactionsRoot, transactionsRoot, hs, ht] at hroot
  rw [hs, ht] at hinj
  have hcontents := hsmap.contents_eq_of_hash htmap htfits hempty hinj hroot
  have htxslength := htxs.length_lt
  have hotherslength := hothers.length_lt
  apply List.ext_getElem?
  intro i
  by_cases hi : i < 2 ^ 64
  · rw [← contentsOf_orderedCalls hi htxslength.le, hcontents,
      contentsOf_orderedCalls hi hotherslength.le]
  · rw [List.getElem?_eq_none (by omega), List.getElem?_eq_none (by omega)]

end FluentStf.Mpt
