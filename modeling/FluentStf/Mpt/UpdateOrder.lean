import FluentStf.Mpt.StateWitness
import FluentStf.Mpt.Writes
import FluentStf.Runs

/-! The order in which the changes of a block are applied does not matter, also on a state of
which only a part is present. The tries of such a state stay tries with stubs whose values all
stand at one depth, and there the writes of different keys can be exchanged. -/
namespace FluentStf.Mpt

open Radix

namespace MptNode

/-- A trie over 32-byte keys of which some subtries may be missing. -/
def Levelled (node : MptNode) : Prop := ∃ w : NibbleTrie, node = toNode w ∧ w.Levelled 64

theorem levelled_null : Levelled .Null := ⟨.null, rfl, .null_root 64⟩

theorem levelled_digest (digest : B256) : Levelled (.Digest digest) :=
  ⟨.stub digest, rfl, .stub_root 64 digest⟩

namespace Levelled

variable {node node' : MptNode} {a b : B256} {x : Option Bytes}

theorem put (h : node.Levelled) (hput : node.put a.bytes x = some node') : node'.Levelled := by
  obtain ⟨w, rfl, hw⟩ := h
  rw [put_toNode hw.canonical, Option.map_eq_some_iff] at hput
  obtain ⟨w', hw', rfl⟩ := hput
  exact ⟨w', rfl, hw.put (toNibs_bytes_length a) hw'⟩

theorem put_comm (h : node.Levelled) (hne : a ≠ b) (x y : Option Bytes) :
    ((node.put a.bytes x).bind fun node => node.put b.bytes y) =
      (node.put b.bytes y).bind fun node => node.put a.bytes x := by
  obtain ⟨w, rfl, hw⟩ := h
  -- Both writes of nodes are writes of the represented tries.
  have both : ∀ (a b : B256) (x y : Option Bytes),
      (((toNode w).put a.bytes x).bind fun node => node.put b.bytes y) =
        ((w.put (toNibs a.bytes) x).bind fun s => s.put (toNibs b.bytes) y).map toNode := by
    intro a b x y
    rw [put_toNode hw.canonical]
    cases hput : w.put (toNibs a.bytes) x with
    | none => rfl
    | some w' => exact put_toNode (Trie.put_spec hw.canonical hput).1 _ _
  rw [both, both, hw.put_comm (toNibs_bytes_length a) (toNibs_bytes_length b) (toNibs_bytes_ne hne)]

theorem getRlp_put (h : node.Levelled) (hne : b ≠ a) (hput : node.put a.bytes x = some node') :
    node'.getRlp b.bytes = node.getRlp b.bytes := by
  obtain ⟨w, rfl, hw⟩ := h
  rw [put_toNode hw.canonical, Option.map_eq_some_iff] at hput
  obtain ⟨w', hw', rfl⟩ := hput
  have hread := hw.lookup_put (toNibs_bytes_length a) (toNibs_bytes_length b)
    (toNibs_bytes_ne hne) hw'
  simp only [getRlp, MptNode.get, getInternal_toNode, hread]

/-- The changed slots of an account, in any order. -/
theorem putSlots_perm (h : node.Levelled) {slots order : List (B256 × U256)}
    (horder : slots.Perm order) (hnodup : (slots.map Prod.fst).Nodup) :
    slots.foldlM putSlot node = order.foldlM putSlot node := by
  refine @foldlM_perm _ _ putSlot Levelled (fun a b => a.1 ≠ b.1) (fun h => h.symm) ?_ ?_ _ _
    horder (List.pairwise_map.mp hnodup) node h
  · intro node slot node' hput hnode
    exact hnode.put hput
  · intro node a b hnode hne
    exact hnode.put_comm hne _ _

theorem putSlots (h : node.Levelled) {slots : List (B256 × U256)}
    (hput : slots.foldlM putSlot node = some node') : node'.Levelled := by
  induction slots generalizing node with
  | nil =>
      cases hput
      exact h
  | cons slot slots ih =>
      rw [List.foldlM_cons] at hput
      obtain ⟨next, hnext, hrest⟩ := Option.bind_eq_some_iff.mp hput
      exact ih (h.put hnext) hrest

end Levelled

end MptNode

/-- The trie of a sequence of calls with 32-byte keys, with any of its subtries cut off. -/
theorem levelled_of_partialView {keccak : Bytes → B256} {node : MptNode} {calls : List Call}
    (hcalls : ∀ call ∈ calls, call.Allowed ∧ call.key.length = 32)
    (h : PartialView keccak node (trieOf calls)) : node.Levelled := by
  have hkeys : PrefixFree {key | ∃ call ∈ calls, call.key = key} :=
    prefixFree_calls fun call hc => (hcalls call hc).2
  obtain ⟨t, hnode, ht⟩ := trieOf_represents calls hkeys fun call hc =>
    ⟨(hcalls call hc).1, call, hc, rfl⟩
  rw [hnode] at h
  obtain ⟨w, rfl, hview⟩ := partialView_toNode h
  refine ⟨w, rfl, Trie.levelled_of_view (not_hides_null keccak) hview ht.canonical ?_⟩
  intro q x hq
  obtain ⟨key, rfl⟩ := ht.key q x hq
  rw [ht.entry, Option.map_eq_some_iff] at hq
  obtain ⟨value, hvalue, _⟩ := hq
  have hlength : key.length = 32 := (hcalls _ (insert_mem_of_contents hvalue)).2
  rw [toNibs_length, hlength]

/-- The same changes, with the accounts and the slots of each account in another order. -/
structure Reordered (post order : HashedPostState) : Prop where
  accounts : post.accounts.Perm order.accounts
  wiped : ∀ address, (post.storageOf address).wiped = (order.storageOf address).wiped
  slots : ∀ address, (post.storageOf address).storage.Perm (order.storageOf address).storage

/-- Every account and every slot of an account occurs once, as in a map. -/
structure HashedPostState.Distinct (post : HashedPostState) : Prop where
  accounts : (post.accounts.map Prod.fst).Nodup
  slots : ∀ address, ((post.storageOf address).storage.map Prod.fst).Nodup

namespace EthereumState

/-- The tries of a state are over 32-byte keys, and subtries may be missing. -/
structure Levelled (state : EthereumState) : Prop where
  stateTrie : state.stateTrie.Levelled
  storageTries : ∀ address trie, state.storageTries address = some trie → trie.Levelled

variable {keccak : Bytes → B256} {post order : HashedPostState} {state state' : EthereumState}
  (h : state.Levelled)

include h

theorem Levelled.storageTrie (address : B256) :
    (state.storageTrie address).Levelled := by
  rw [EthereumState.storageTrie]
  cases htrie : state.storageTries address with
  | none => exact MptNode.levelled_null
  | some trie => exact h.storageTries address trie htrie

theorem Levelled.openStorage {address : B256} {storage : HashedStorage} {trie : MptNode}
    (hopen : state.openStorage address storage = .ok trie) : trie.Levelled := by
  have hstored := h.storageTrie address
  rw [EthereumState.openStorage, recoverStorage] at hopen
  split at hopen
  · cases hopen
  · next recovered hrecover =>
      have hrecovered : recovered.Levelled := by
        split at hrecover
        · split at hrecover
          · split_ifs at hrecover
            · cases hrecover
              exact MptNode.levelled_digest _
            · cases hrecover
              exact hstored
          · cases hrecover
          · cases hrecover
            exact hstored
        · cases hrecover
          exact hstored
      cases hopen
      split_ifs
      · exact MptNode.levelled_null
      · exact hrecovered

theorem Levelled.accountWrite {change : B256 × Option Account}
    {write : Option MptNode × Option Bytes}
    (hwrite : state.accountWrite keccak post change = some write) {trie : MptNode}
    (htrie : write.1 = some trie) : trie.Levelled := by
  obtain ⟨address, account⟩ := change
  cases account with
  | none =>
      cases hwrite
      cases htrie
  | some account =>
      obtain ⟨opened, hopen, hwrite⟩ := Option.bind_eq_some_iff.mp hwrite
      obtain ⟨final, hfinal, rfl⟩ := Option.map_eq_some_iff.mp hwrite
      cases htrie
      cases hrun : state.openStorage address (post.storageOf address) with
      | error e =>
          rw [hrun] at hopen
          cases hopen
      | ok trie =>
          rw [hrun] at hopen
          cases hopen
          exact (h.openStorage hrun).putSlots hfinal

theorem Levelled.putAccount {change : B256 × Option Account}
    (hput : state.putAccount keccak post change = some state') : state'.Levelled := by
  obtain ⟨write, hwrite, hput⟩ := Option.bind_eq_some_iff.mp hput
  obtain ⟨trie, htrie, rfl⟩ := Option.map_eq_some_iff.mp hput
  refine ⟨h.stateTrie.put htrie, fun address stored hstored => ?_⟩
  simp only at hstored
  by_cases ha : address = change.1
  · subst ha
    cases hnew : write.1 with
    | none =>
        rw [hnew] at hstored
        exact h.storageTries _ _ hstored
    | some new =>
        rw [hnew, storeTrie, Function.update_self] at hstored
        cases hstored
        exact h.accountWrite hwrite hnew
  · rw [storeTrie_of_ne ha] at hstored
    exact h.storageTries _ _ hstored

/-- Writing one account does not change what is written for another one. -/
theorem accountWrite_putAccount {a b : B256 × Option Account} (hne : a.1 ≠ b.1)
    (hput : state.putAccount keccak post b = some state') :
    state'.accountWrite keccak post a = state.accountWrite keccak post a := by
  obtain ⟨write, hwrite, hput⟩ := Option.bind_eq_some_iff.mp hput
  obtain ⟨trie, htrie, rfl⟩ := Option.map_eq_some_iff.mp hput
  exact accountWrite_congr (storeTrie_of_ne hne _) (h.stateTrie.getRlp_put hne htrie)

/-- Two accounts can be written in either order. -/
theorem putAccount_comm {a b : B256 × Option Account} (hne : a.1 ≠ b.1) :
    ((state.putAccount keccak post a).bind fun state => state.putAccount keccak post b) =
      (state.putAccount keccak post b).bind fun state => state.putAccount keccak post a := by
  -- An account without a write fails at once, and after the other account as well.
  have fails : ∀ {a b : B256 × Option Account}, a.1 ≠ b.1 →
      state.accountWrite keccak post a = none →
      ((state.putAccount keccak post b).bind fun state => state.putAccount keccak post a) =
        none := by
    intro a b hne hnone
    rw [Option.bind_eq_none_iff]
    intro next hnext
    rw [putAccount, accountWrite_putAccount h hne hnext, hnone, Option.bind_none]
  -- With both writes known, what remains are two writes of the state trie.
  have succeeds : ∀ {a b : B256 × Option Account} {v w : Option MptNode × Option Bytes},
      a.1 ≠ b.1 → state.accountWrite keccak post a = some v →
      state.accountWrite keccak post b = some w →
      ((state.putAccount keccak post a).bind fun state => state.putAccount keccak post b) =
        ((state.stateTrie.put a.1.bytes v.2).bind fun trie => trie.put b.1.bytes w.2).map
          fun trie => ⟨trie, storeTrie (storeTrie state.storageTries a.1 v.1) b.1 w.1⟩ := by
    intro a b v w hne hv hw
    have hput : state.putAccount keccak post a = (state.stateTrie.put a.1.bytes v.2).map
        fun trie => ⟨trie, storeTrie state.storageTries a.1 v.1⟩ := by
      rw [putAccount, hv, Option.bind_some]
    cases htrie : state.stateTrie.put a.1.bytes v.2 with
    | none => simp only [hput, htrie, Option.map_none, Option.bind_none]
    | some trie =>
        rw [htrie, Option.map_some] at hput
        have hsame := accountWrite_putAccount h hne.symm hput
        rw [hput, Option.bind_some, putAccount, hsame, hw]
        rfl
  cases ha : state.accountWrite keccak post a with
  | none =>
      rw [fails hne ha, putAccount, ha]
      rfl
  | some v =>
      cases hb : state.accountWrite keccak post b with
      | none =>
          rw [fails hne.symm hb, putAccount, hb]
          rfl
      | some w =>
          rw [succeeds hne ha hb, succeeds hne.symm hb ha, h.stateTrie.put_comm hne,
            storeTrie_comm _ hne]

/-- The order of the slots of an account does not matter. -/
theorem putAccount_reordered (hsame : Reordered post order) (hdistinct : post.Distinct)
    (change : B256 × Option Account) :
    state.putAccount keccak post change = state.putAccount keccak order change := by
  have hwrite : state.accountWrite keccak post change = state.accountWrite keccak order change := by
    obtain ⟨address, account⟩ := change
    cases account with
    | none => rfl
    | some account =>
        have hopen : state.openStorage address (post.storageOf address) =
            state.openStorage address (order.storageOf address) := by
          simp only [EthereumState.openStorage, hsame.wiped]
        simp only [EthereumState.accountWrite, ← hopen]
        cases hrun : state.openStorage address (post.storageOf address) with
        | error e => rfl
        | ok trie =>
            simp only [Except.toOption, Option.bind_some,
              (h.openStorage hrun).putSlots_perm (hsame.slots address) (hdistinct.slots address)]
  rw [putAccount, putAccount, hwrite]

/-- All changes, in any order. -/
theorem putAccounts_reordered (hsame : Reordered post order) (hdistinct : post.Distinct) :
    post.accounts.foldlM (putAccount keccak post) state =
      order.accounts.foldlM (putAccount keccak order) state := by
  have hslots : ∀ {state : EthereumState} (accounts : List (B256 × Option Account)),
      state.Levelled → accounts.foldlM (putAccount keccak post) state =
        accounts.foldlM (putAccount keccak order) state := by
    intro state accounts h
    induction accounts generalizing state with
    | nil => rfl
    | cons change accounts ih =>
        rw [List.foldlM_cons, List.foldlM_cons, ← putAccount_reordered h hsame hdistinct]
        cases hput : state.putAccount keccak post change with
        | none => rfl
        | some next => exact ih (h.putAccount hput)
  rw [← hslots order.accounts h]
  refine @foldlM_perm _ _ (putAccount keccak post) Levelled (fun a b => a.1 ≠ b.1)
    (fun h => h.symm) ?_ ?_ _ _ hsame.accounts (List.pairwise_map.mp hdistinct.accounts) state h
  · intro state change state' hput hstate
    exact hstate.putAccount hput
  · intro state a b hstate hne
    exact putAccount_comm hstate hne

end EthereumState

/-- The order of an update does not matter, even where subtries are missing: in both orders it
panics, or in both it ends in the same tries and the same state root. -/
theorem update_order_irrelevant (keccak : Bytes → B256) (state : EthereumState)
    (hstate : ∃ calls, (∀ call ∈ calls, call.Allowed ∧ call.key.length = 32) ∧
      PartialView keccak state.stateTrie (trieOf calls))
    (hstorage : ∀ address trie, state.storageTries address = some trie →
      ∃ calls, (∀ call ∈ calls, call.Allowed ∧ call.key.length = 32) ∧
        PartialView keccak trie (trieOf calls))
    (post order : HashedPostState) (hdistinct : post.Distinct) (hsame : Reordered post order) :
    (state.update keccak post = .error .panic ∧ state.update keccak order = .error .panic) ∨
      ∃ first second, state.update keccak post = .ok first ∧
        state.update keccak order = .ok second ∧
        first.stateTrie = second.stateTrie ∧ first.storageTries = second.storageTries ∧
        first.stateRoot keccak = second.stateRoot keccak := by
  have hlevelled : state.Levelled := by
    obtain ⟨calls, hcalls, hview⟩ := hstate
    refine ⟨levelled_of_partialView hcalls hview, fun address trie htrie => ?_⟩
    obtain ⟨calls, hcalls, hview⟩ := hstorage address trie htrie
    exact levelled_of_partialView hcalls hview
  rw [EthereumState.update, EthereumState.update, EthereumState.updateAccounts_eq,
    EthereumState.updateAccounts_eq, EthereumState.putAccounts_reordered hlevelled hsame hdistinct]
  cases order.accounts.foldlM (EthereumState.putAccount keccak order) state with
  | none => exact .inl ⟨rfl, rfl⟩
  | some final => exact .inr ⟨final, final, rfl, rfl, rfl, rfl, rfl⟩

section Sample

/-- The first account gets two slots and a new account is created beside it. -/
def slotsAndAccount (accounts : List (B256 × Option Account)) (slots : List (B256 × U256)) :
    HashedPostState :=
  ⟨accounts, [(B256.zero, ⟨false, slots⟩)]⟩

theorem storageOf_slotsAndAccount (accounts : List (B256 × Option Account))
    (slots : List (B256 × U256)) (address : B256) :
    (slotsAndAccount accounts slots).storageOf address =
      if address = B256.zero then ⟨false, slots⟩ else ⟨false, []⟩ := by
  by_cases h : address = B256.zero
  · simp [slotsAndAccount, HashedPostState.storageOf, h]
  · rw [HashedPostState.storageOf, slotsAndAccount, lookup_cons_of_ne h, if_neg h]
    rfl

def sampleAccounts : List (B256 × Option Account) :=
  [(B256.zero, some ⟨1, 7, none⟩), (.ofNat (2 ^ 255), some ⟨1, 9, none⟩)]

def sampleSlots : List (B256 × U256) := [(B256.zero, 1), (.ofNat 1, 2)]

theorem update_order_irrelevant_sample :
    ∃ first second,
      hiddenAddressState.update (tableHash twoAddressesDigests)
        (slotsAndAccount sampleAccounts sampleSlots) = .ok first ∧
      hiddenAddressState.update (tableHash twoAddressesDigests)
        (slotsAndAccount sampleAccounts.reverse sampleSlots.reverse) = .ok second ∧
      first.stateTrie = second.stateTrie ∧ first.storageTries = second.storageTries ∧
      first.stateRoot (tableHash twoAddressesDigests) =
        second.stateRoot (tableHash twoAddressesDigests) := by
  have hdistinct : (slotsAndAccount sampleAccounts sampleSlots).Distinct := by
    refine ⟨by decide +kernel, fun address => ?_⟩
    rw [storageOf_slotsAndAccount]
    split_ifs
    · decide +kernel
    · exact List.nodup_nil
  have hsame : Reordered (slotsAndAccount sampleAccounts sampleSlots)
      (slotsAndAccount sampleAccounts.reverse sampleSlots.reverse) := by
    refine ⟨(List.reverse_perm _).symm, fun address => ?_, fun address => ?_⟩
    · rw [storageOf_slotsAndAccount, storageOf_slotsAndAccount]
      split_ifs <;> rfl
    · rw [storageOf_slotsAndAccount, storageOf_slotsAndAccount]
      split_ifs
      · exact (List.reverse_perm _).symm
      · exact List.Perm.refl _
  have hstate : ∃ calls, (∀ call ∈ calls, call.Allowed ∧ call.key.length = 32) ∧
      PartialView (tableHash twoAddressesDigests) hiddenAddressState.stateTrie (trieOf calls) :=
    ⟨twoAddresses, fun call hc => ⟨(twoAddresses_allowed call hc).1,
      (twoAddresses_allowed call hc).2.2⟩, hiddenAddressState_view.state⟩
  have hok : (hiddenAddressState.update (tableHash twoAddressesDigests)
      (slotsAndAccount sampleAccounts sampleSlots)).isOk := by
    decide +kernel
  rcases update_order_irrelevant (tableHash twoAddressesDigests) hiddenAddressState hstate
    (fun _ _ h => nomatch h) _ _ hdistinct hsame with ⟨hpanic, _⟩ | hsame
  · rw [hpanic] at hok
    cases hok
  · exact hsame

end Sample

end FluentStf.Mpt
