import FluentStf.Mpt.MultiproofState
import FluentStf.Mpt.Rewrite

/-! What can be read from a state that was built from two multiproofs: the slots that were asked
for, beside the accounts. On the same state the block can be carried out. -/
namespace FluentStf.Mpt

open Radix

section Calls

/-- Instead of a value that does not fit nothing is inserted. -/
def Call.trim : Call → Call
  | .insert key value => if value.length < 2 ^ 63 then .insert key value else .delete key
  | call => call

/-- The part of a map whose values fit. -/
def trimmed (contents : Bytes → Option Bytes) (key : Bytes) : Option Bytes :=
  (contents key).filter fun value => value.length < 2 ^ 63

theorem Call.trim_spec {call : Call} (hallowed : call.Allowed) (hkey : call.key.length = 32) :
    call.trim.Allowed ∧ call.trim.Fits ∧ call.trim.key.length = 32 := by
  cases call with
  | insert key value =>
      rw [Call.trim]
      split_ifs with hvalue
      · exact ⟨hallowed, ⟨by rw [show key.length = 32 from hkey]; decide, hvalue⟩, hkey⟩
      · exact ⟨trivial, trivial, hkey⟩
  | delete key => exact ⟨trivial, trivial, hkey⟩
  | get key => exact ⟨trivial, trivial, hkey⟩

theorem Call.trim_apply (contents : Bytes → Option Bytes) (call : Call) :
    call.trim.apply (trimmed contents) = trimmed (call.apply contents) := by
  have hupdate : ∀ (key : Bytes) (x : Option Bytes), Function.update (trimmed contents) key
      (x.filter fun value => value.length < 2 ^ 63) = trimmed (Function.update contents key x) := by
    intro key x
    funext other
    by_cases hother : other = key
    · subst hother
      simp [trimmed]
    · simp [trimmed, hother]
  cases call with
  | insert key value =>
      rw [Call.apply, ← hupdate, Call.trim, Option.filter_some]
      by_cases hvalue : value.length < 2 ^ 63
      · rw [if_pos hvalue, if_pos (decide_eq_true hvalue)]
        rfl
      · rw [if_neg hvalue, if_neg (mt of_decide_eq_true hvalue)]
        rfl
  | delete key => exact hupdate key none
  | get key => rfl

theorem contentsOf_trim (calls : List Call) :
    contentsOf (calls.map Call.trim) = trimmed (contentsOf calls) := by
  have hrun : ∀ contents, applyCalls (trimmed contents) (calls.map Call.trim) =
      trimmed (applyCalls contents calls) := by
    induction calls with
    | nil => exact fun _ => rfl
    | cons call calls ih =>
        intro contents
        simp only [applyCalls, List.map_cons, List.foldl_cons, Call.trim_apply]
        exact ih (call.apply contents)
  exact hrun fun _ => none

/-- A trie that is built for a map of values that fit is built by calls that fit. -/
theorem Builds.isTrie {contents : Bytes → Option Bytes} {node : MptNode} (h : Builds contents node)
    (hsize : ∀ key value, contents key = some value → value.length < 2 ^ 63) : IsTrie node := by
  obtain ⟨calls, hcalls, hcontents, hnode⟩ := id h
  have htrim : ∀ call ∈ calls.map Call.trim,
      call.Allowed ∧ call.Fits ∧ call.key.length = 32 := by
    intro _ hmem
    obtain ⟨call, hcall, rfl⟩ := List.mem_map.mp hmem
    exact Call.trim_spec (hcalls call hcall).1 (hcalls call hcall).2
  have hsame : trimmed contents = contents := by
    funext key
    rw [trimmed]
    cases hkey : contents key with
    | none => rfl
    | some value => rw [Option.filter_some, if_pos (decide_eq_true (hsize key value hkey))]
  have hbuilds : Builds contents (trieOf (calls.map Call.trim)) :=
    ⟨_, fun call hcall => ⟨(htrim call hcall).1, (htrim call hcall).2.2⟩,
      by rw [contentsOf_trim, hcontents, hsame], rfl⟩
  exact ⟨_, htrim, h.unique hbuilds⟩

end Calls

section Slots

variable {reader : RlpReader} {keccak : Bytes → B256} {F F' : EthereumState} {targets : Targets}
  {before after : MultiProof} {fuel : Nat} {state : EthereumState}

/-- The addresses that a state from multiproofs has storage tries for. -/
def proofAddresses (before : MultiProof) : List B256 :=
  if before.accountSubtree.isEmpty then [] else before.storages.map Prod.fst

theorem mem_proofAddresses {stateRoot : B256}
    (h : transitionMultiproofsToTries reader keccak fuel stateRoot before after = .ok state)
    (address : B256) : address ∈ proofAddresses before ↔ state.storageTries address ≠ none := by
  by_cases hnil : before.accountSubtree = []
  · rw [transitionMultiproofsToTries, hnil] at h
    cases h
    simp [proofAddresses, hnil]
  · obtain ⟨-, -, -, -, -, hstorages, -, -⟩ := (transition_eq_ok hnil).mp h
    obtain ⟨hfrom, hthere⟩ := collectStorages_spec hstorages
    rw [proofAddresses, if_neg (by simpa using hnil)]
    constructor
    · exact fun hmem => hthere address (.inr hmem)
    · intro hsome
      obtain ⟨trie, htrie⟩ := Option.ne_none_iff_exists'.mp hsome
      obtain hnone | ⟨storage, hmem, -⟩ := hfrom address trie htrie
      · cases hnone
      · exact List.mem_map_of_mem hmem

/-- The state trie has the root it was asked for. -/
theorem transition_root {stateRoot : B256} (hroot : stateRoot ≠ B256.zero)
    (h : transitionMultiproofsToTries reader keccak fuel stateRoot before after = .ok state) :
    state.stateRoot keccak = stateRoot := by
  by_cases hnil : before.accountSubtree = []
  · rw [transitionMultiproofsToTries, hnil] at h
    cases h
    rw [EthereumState.stateRoot, nodeFromDigest]
    split_ifs with hempty
    · exact (hempty.resolve_right hroot).symm
    · rfl
  · obtain ⟨-, -, -, -, -, -, -, hhash⟩ := (transition_eq_ok hnil).mp h
    exact hhash

end Slots

section Revealed

variable {reader : RlpReader} {keccak : Bytes → B256} {F F' : EthereumState} {targets : Targets}
  {before after : MultiProof} {fuel : Nat} {state : EthereumState}

/-- Two bounds for the recursion give one result. -/
theorem resolveNodes_unique {store : NodeStore} {node trie trie' : MptNode} {fuel' : Nat}
    (h : resolveNodes store fuel node = some trie)
    (h' : resolveNodes store fuel' node = some trie') : trie = trie' := by
  have hsame := resolveNodes_mono (le_max_left fuel fuel') h
  rw [resolveNodes_mono (le_max_right fuel fuel') h'] at hsame
  exact (Option.some.inj hsame).symm

/-- What the nodes on the paths of some words, before and after a block, resolve to. -/
theorem Contains.reveals (hreader : reader.ReadsBack)
    (hempty : keccak [EMPTY_STRING_CODE] = EMPTY_ROOT) {T T' W : MptNode}
    (hT : IsTrie T) (hT' : IsTrie T') {words : List B256} (hwords : words ≠ [])
    {rlps rlps' : List Bytes} (hbefore : Contains keccak T (slotKeys words) rlps)
    (hafter : Contains keccak T' (slotKeys words) rlps')
    (hinj : Set.InjOn keccak {encoded | encoded ∈ resolvedEncodings keccak T T' rlps'})
    {rootNode : MptNode} {store store' : NodeStore}
    (hcollect : collectBefore reader keccak (T.hash keccak) rlps .Null .empty =
      .ok (rootNode, store))
    (hrun : collectAfter reader keccak rlps' store = .ok store')
    (hresolve : resolveNodes store' fuel rootNode = some W) : Reveals keccak words W T T' := by
  obtain ⟨t, rfl, ht⟩ := hT.keyed
  obtain ⟨t', rfl, ht'⟩ := hT'.keyed
  obtain ⟨_, _, _, w, hcollect', hrun', ⟨bound, hw⟩, hview, _, hstubs, hholds⟩ :=
    resolve_contained hreader hempty ht ht'.opened ht'.fits (by simpa [slotKeys] using hwords)
      hbefore hafter hinj
  cases hcollect.symm.trans hcollect'
  cases hrun.symm.trans hrun'
  rw [resolveNodes_unique hresolve (hw bound le_rfl)]
  have hthere : ∀ {u : NibbleTrie} {d : B256}, Hides keccak d u → (toNode u).shallow keccak ∈
      {node | node ∈ rlps.map readNode} ∪
        {node | ∃ a ∈ rlps'.map readNode, node = a ∨ node ∈ shortened a} →
      store' (.Digest d) ≠ none := by
    intro u d hd hmem
    have hfull := hholds.full _ hmem
    rwa [MptNode.reference_shallow, show (toNode u).reference keccak = _ from hd] at hfull
  refine .of_store ht ht' hview hstubs ?_ ?_
  · intro word hword q u d hu hq hd
    exact hthere hd (.inl (hbefore.onPaths ht.fits _ (List.mem_map_of_mem hword) q u hu
      (hides_ne_null hd) hq))
  · intro word hword r s u d hnode hu hr hd
    have hne : Trie.graft s u ≠ .null := by simpa using hides_ne_null hd
    exact hthere hd (.inr ⟨_, hafter.onPaths ht'.fits _ (List.mem_map_of_mem hword) r _ hnode hne
      hr, .inr (shallow_mem_shortened s (hides_ne_null hd) hu)⟩)

/-- The nodes that a multiproof has for the slots of a target. -/
theorem IsMultiproof.contains_slots (h : IsMultiproof keccak F targets after)
    (hnodup : (targets.map Prod.fst).Nodup) {address : B256} {slots : List B256}
    (htarget : (address, slots) ∈ targets) (hslots : slots ≠ []) :
    Contains keccak (F.storageTrie address) (slotKeys slots) (afterSubtree after address) := by
  have hthere := h.targets _ htarget
  rw [afterSubtree]
  cases hlookup : after.storages.lookup address with
  | none =>
      obtain ⟨entry, hentry, hsame⟩ := List.mem_map.mp hthere
      exact absurd hlookup (by
        rw [List.lookup_eq_none_iff]
        simp only [not_forall]
        exact ⟨entry, hentry, by simpa using hsame.symm⟩)
  | some storage =>
      have hmem : (address, storage) ∈ after.storages := by
        obtain ⟨l, r, hsplit, _⟩ := List.lookup_eq_some_iff.mp hlookup
        rw [hsplit]
        simp
      obtain ⟨slots', htarget', hreport⟩ := h.storages address storage hmem
      obtain rfl := Targets.unique hnodup htarget' htarget
      rw [StorageReport, if_neg hslots] at hreport
      exact hreport.2

/-- A state from two multiproofs reveals what was asked for. Of an account without slots it has
the empty trie. -/
theorem Proved.reveals (h : Proved keccak reader F F' targets before after)
    (hnodup : (targets.map Prod.fst).Nodup) (hne : targets ≠ [])
    (hstate : transitionMultiproofsToTries reader keccak fuel
      (F.stateTrie.hash keccak) before after =
      .ok state) :
    Reveals keccak (targets.map Prod.fst) state.stateTrie F.stateTrie F'.stateTrie ∧
      ∀ address trie, state.storageTries address = some trie →
        ∃ slots, (address, slots) ∈ targets ∧
          (slots = [] ∧ trie = .Null ∨
            Reveals keccak slots trie (F.storageTrie address) (F'.storageTrie address)) := by
  have hwords : targets.map Prod.fst ≠ [] := by simpa using hne
  have hkeys : slotKeys (targets.map Prod.fst) ≠ [] := by simpa [slotKeys] using hne
  obtain ⟨rootNode, store, store', hcollect, hrun, hstorages, hresolve, -⟩ :=
    (transition_eq_ok (h.proof.accounts.ne_nil hkeys)).mp hstate
  refine ⟨h.proof.accounts.reveals h.reads h.empty h.full.state h.full'.state hwords
    h.proof'.accounts (h.injOn.mono fun _ he => .inl he) hcollect hrun hresolve,
      fun address trie htrie => ?_⟩
  obtain hnone | ⟨storage, hmem, hstorage⟩ := (collectStorages_spec hstorages).1 address trie htrie
  · cases hnone
  obtain ⟨slots, htarget, hreport⟩ := h.proof.storages address storage hmem
  refine ⟨slots, htarget, ?_⟩
  rw [StorageReport] at hreport
  split_ifs at hreport with hslots
  · rw [storageTrieFrom, hreport.2] at hstorage
    cases hstorage
    exact .inl ⟨hslots, if_pos (.inl hreport.1)⟩
  · refine .inr ?_
    obtain ⟨hroot, hcontains⟩ := hreport
    obtain ⟨_, _, _, hcollect, hrun, hresolve, -⟩ := (storageTrieFrom_eq_ok
      (hcontains.ne_nil (by simpa [slotKeys] using hslots))).mp hstorage
    rw [hroot] at hcollect
    exact hcontains.reveals h.reads h.empty (h.full.storage address) (h.full'.storage address)
      hslots (h.proof'.contains_slots hnodup htarget hslots)
      (h.injOn.mono fun _ he => .inr ⟨address, he⟩) hcollect hrun hresolve

theorem storageTrieFrom_mono {more : Nat} (hle : fuel ≤ more) {storage : StorageMultiProof}
    {address : B256} {trie : MptNode}
    (h : storageTrieFrom reader keccak fuel storage (after.storages.lookup address) = .ok trie) :
    storageTrieFrom reader keccak more storage (after.storages.lookup address) = .ok trie := by
  by_cases hnil : storage.subtree = []
  · rw [storageTrieFrom, if_pos (by simp [hnil])] at h ⊢
    exact h
  · rw [storageTrieFrom_eq_ok hnil] at h ⊢
    obtain ⟨rootNode, store, store', hcollect, hrun, hresolve, hhash⟩ := h
    exact ⟨rootNode, store, store', hcollect, hrun, resolveNodes_mono hle hresolve, hhash⟩

theorem collectStorages_mono {more : Nat} (hle : fuel ≤ more)
    {storages : List (B256 × StorageMultiProof)} {tries final : B256 → Option MptNode}
    (h : collectStorages reader keccak fuel after storages tries = .ok final) :
    collectStorages reader keccak more after storages tries = .ok final := by
  induction storages generalizing tries with
  | nil => exact h
  | cons entry storages ih =>
      rw [collectStorages, bind_eq_ok] at h ⊢
      obtain ⟨trie, htrie, hrest⟩ := h
      exact ⟨trie, storageTrieFrom_mono hle htrie, ih hrest⟩

/-- More fuel does not change a state. -/
theorem transition_mono {more : Nat} (hle : fuel ≤ more) {stateRoot : B256}
    (h : transitionMultiproofsToTries reader keccak fuel stateRoot before after = .ok state) :
    transitionMultiproofsToTries reader keccak more stateRoot before after = .ok state := by
  by_cases hnil : before.accountSubtree = []
  · rw [transitionMultiproofsToTries, if_pos (by simp [hnil])] at h ⊢
    exact h
  · rw [transition_eq_ok hnil] at h ⊢
    obtain ⟨rootNode, store, store', hcollect, hrun, hstorages, hresolve, hhash⟩ := h
    exact ⟨rootNode, store, store', hcollect, hrun, collectStorages_mono hle hstorages,
      resolveNodes_mono hle hresolve, hhash⟩

/-- A slot that was asked for reads as in the full state. -/
theorem Proved.slot (h : Proved keccak reader F F' targets before after)
    (hnodup : (targets.map Prod.fst).Nodup)
    (hstate : transitionMultiproofsToTries reader keccak fuel
      (F.stateTrie.hash keccak) before after =
      .ok state) {address : B256} {slots : List B256} (htarget : (address, slots) ∈ targets)
    {slot : B256} (hslot : slot ∈ slots) :
    ∃ trie, state.storageTries address = some trie ∧
      trie.get slot.bytes = (F.storageTrie address).get slot.bytes := by
  have hbuilt := h.builtState hstate
  obtain ⟨trie, htrie⟩ := Option.ne_none_iff_exists'.mp (hbuilt.storage _ htarget)
  refine ⟨trie, htrie, ?_⟩
  obtain ⟨slots', htarget', hcase⟩ :=
    (h.reveals hnodup (List.ne_nil_of_mem htarget) hstate).2 address trie htrie
  obtain rfl := Targets.unique hnodup htarget' htarget
  rcases hcase with ⟨hnil, -⟩ | hreveals
  · exact absurd hnil (List.ne_nil_of_mem hslot)
  · exact hreveals.read slot hslot

end Revealed

end FluentStf.Mpt
