import FluentStf.Nitro.Batch

/-! The store of executed blocks over any sequence of insertions, with any bound on its size
in place of `MAX_ENTRIES`. -/
namespace FluentStf.Nitro

open Highest

namespace BlockStore

/-- An insertion into a store that may have at most `maxEntries` entries. -/
def insertWithin (maxEntries : Nat) (store : BlockStore) (blockNumber : UInt64)
    (entry : BlockEntry) : BlockStore :=
  ⟨trim maxEntries (store.entries.insert blockNumber entry)⟩

theorem insert_eq (store : BlockStore) (blockNumber : UInt64) (entry : BlockEntry) :
    store.insert blockNumber entry = store.insertWithin MAX_ENTRIES blockNumber entry := by
  rw [insert, evict_eq_trim, insertWithin]

/-- The store after a sequence of insertions. -/
def insertAll (maxEntries : Nat) (inserted : List (UInt64 × BlockEntry)) : BlockStore :=
  inserted.foldl (fun store block => store.insertWithin maxEntries block.1 block.2) new

/-- The store holds the highest of the block numbers that were inserted, each with the entry
that was inserted last for it, and no others. -/
def HoldsHighest (maxEntries : Nat) (inserted : List (UInt64 × BlockEntry))
    (store : BlockStore) : Prop :=
  ∃ kept : Finset UInt64, IsHighest maxEntries (inserted.map Prod.fst).toFinset kept ∧
    ∀ n, store.get n = if n ∈ kept then inserted.reverse.lookup n else none

theorem keeps_insertAll (maxEntries : Nat) (inserted : List (UInt64 × BlockEntry)) :
    Keeps maxEntries inserted (insertAll maxEntries inserted).entries := by
  induction inserted using List.reverseRecOn with
  | nil => exact .empty
  | append_singleton inserted block ih =>
      rw [insertAll, List.foldl_append]
      exact ih.insert block.1 block.2

theorem insertAll_holdsHighest (maxEntries : Nat) (inserted : List (UInt64 × BlockEntry)) :
    HoldsHighest maxEntries inserted (insertAll maxEntries inserted) := by
  have h := keeps_insertAll maxEntries inserted
  exact ⟨_, h.highest, h.getElem?_eq⟩

end BlockStore

/-- For every bound on its size, the store holds the highest blocks after any insertions; so
it does with the bound of the enclave. -/
theorem block_store_keeps_highest (inserted : List (UInt64 × BlockEntry)) :
    (∀ maxEntries, BlockStore.HoldsHighest maxEntries inserted
      (BlockStore.insertAll maxEntries inserted)) ∧
    BlockStore.HoldsHighest MAX_ENTRIES inserted
      (inserted.foldl (fun store block => store.insert block.1 block.2) BlockStore.new) := by
  refine ⟨fun maxEntries => BlockStore.insertAll_holdsHighest maxEntries inserted, ?_⟩
  simp only [BlockStore.insert_eq]
  exact BlockStore.insertAll_holdsHighest MAX_ENTRIES inserted

end FluentStf.Nitro
