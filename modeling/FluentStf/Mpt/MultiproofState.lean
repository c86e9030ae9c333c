import FluentStf.Mpt.Multiproof

/-! Which states from multiproofs the client accepts. A provider that is asked for an account
but for none of its slots reports the empty root, whatever the storage of the account is. -/
namespace FluentStf.Mpt

open Radix

section Inversion

variable {reader : RlpReader} {keccak : Bytes → B256} {fuel : Nat}

theorem resolveTrie_eq_ok {store : NodeStore} {rootNode trie : MptNode} :
    resolveTrie fuel store rootNode = .ok trie ↔ resolveNodes store fuel rootNode = some trie := by
  rw [resolveTrie]
  cases resolveNodes store fuel rootNode <;> simp

/-- A trie is returned if it has the expected hash. -/
theorem checked_eq_ok {found expected : B256} {e : ProofFault} {α : Type} {a r : α} :
    (if found ≠ expected then Except.error e else .ok a) = .ok r ↔ found = expected ∧ a = r := by
  by_cases h : found = expected <;> simp [h]

/-- The nodes of the proof after the block for one account. -/
def afterSubtree (after : MultiProof) (address : B256) : List Bytes :=
  ((after.storages.lookup address).map StorageMultiProof.subtree).getD []

variable {after : MultiProof}

theorem storageTrieFrom_eq_ok {before : StorageMultiProof} (h : before.subtree ≠ [])
    {address : B256} {trie : MptNode} :
    storageTrieFrom reader keccak fuel before (after.storages.lookup address) = .ok trie ↔
      ∃ rootNode store store',
        collectBefore reader keccak before.root before.subtree .Null .empty =
          .ok (rootNode, store) ∧
        collectAfter reader keccak (afterSubtree after address) store = .ok store' ∧
        resolveNodes store' fuel rootNode = some trie ∧ trie.hash keccak = before.root := by
  have hafter : ∀ store, mergeAfter reader keccak (after.storages.lookup address) store =
      collectAfter reader keccak (afterSubtree after address) store := by
    intro store
    rw [afterSubtree]
    cases after.storages.lookup address <;> rfl
  rw [storageTrieFrom, if_neg (by simpa using h), bind_eq_ok]
  simp only [hafter, bind_eq_ok, resolveTrie_eq_ok, checked_eq_ok, Prod.exists]
  constructor
  · rintro ⟨rootNode, store, hbefore, store', hrun, found, hfound, hhash, rfl⟩
    exact ⟨rootNode, store, store', hbefore, hrun, hfound, hhash⟩
  · rintro ⟨rootNode, store, store', hbefore, hrun, hfound, hhash⟩
    exact ⟨rootNode, store, hbefore, store', hrun, trie, hfound, hhash, rfl⟩

theorem transition_eq_ok {stateRoot : B256} {before : MultiProof} (h : before.accountSubtree ≠ [])
    {state : EthereumState} :
    transitionMultiproofsToTries reader keccak fuel stateRoot before after = .ok state ↔
      ∃ rootNode store store',
        collectBefore reader keccak stateRoot before.accountSubtree .Null .empty =
          .ok (rootNode, store) ∧
        collectAfter reader keccak after.accountSubtree store = .ok store' ∧
        collectStorages reader keccak fuel after before.storages (fun _ => none) =
          .ok state.storageTries ∧
        resolveNodes store' fuel rootNode = some state.stateTrie ∧
        state.stateTrie.hash keccak = stateRoot := by
  rw [transitionMultiproofsToTries, if_neg (by simpa using h), bind_eq_ok]
  simp only [bind_eq_ok, resolveTrie_eq_ok, checked_eq_ok, Prod.exists]
  constructor
  · rintro ⟨rootNode, store, hbefore, store', hrun, tries, htries, found, hfound, hhash, rfl⟩
    exact ⟨rootNode, store, store', hbefore, hrun, htries, hfound, hhash⟩
  · rintro ⟨rootNode, store, store', hbefore, hrun, htries, hfound, hhash⟩
    exact ⟨rootNode, store, hbefore, store', hrun, _, htries, _, hfound, hhash, rfl⟩

/-- Every storage trie comes from an entry of the proof, and every entry gives one. -/
theorem collectStorages_spec {storages : List (B256 × StorageMultiProof)}
    {tries final : B256 → Option MptNode}
    (h : collectStorages reader keccak fuel after storages tries = .ok final) :
    (∀ address trie, final address = some trie → tries address = some trie ∨
      ∃ storage, (address, storage) ∈ storages ∧
        storageTrieFrom reader keccak fuel storage (after.storages.lookup address) = .ok trie) ∧
    ∀ address, tries address ≠ none ∨ address ∈ storages.map Prod.fst → final address ≠ none := by
  induction storages generalizing tries with
  | nil =>
      cases h
      refine ⟨fun _ _ hfinal => .inl hfinal, fun address hthere => ?_⟩
      simpa using hthere
  | cons entry storages ih =>
      obtain ⟨first, storage⟩ := entry
      rw [collectStorages, bind_eq_ok] at h
      obtain ⟨trie, htrie, hrest⟩ := h
      obtain ⟨hfrom, hthere⟩ := ih hrest
      constructor
      · intro address found hfound
        rcases hfrom address found hfound with hold | ⟨other, hmem, hother⟩
        · by_cases ha : address = first
          · subst ha
            rw [Function.update_self] at hold
            cases hold
            exact .inr ⟨storage, .head _, htrie⟩
          · rw [Function.update_of_ne ha] at hold
            exact .inl hold
        · exact .inr ⟨other, .tail _ hmem, hother⟩
      · intro address hin
        apply hthere
        by_cases ha : address = first
        · subst ha
          simp
        · rw [Function.update_of_ne ha]
          simpa [ha] using hin

/-- With enough fuel the loop over the accounts ends if every single account does. -/
theorem collectStorages_ends (storages : List (B256 × StorageMultiProof))
    (h : ∀ entry ∈ storages, ∃ bound, ∀ fuel, bound ≤ fuel → ∃ trie,
      storageTrieFrom reader keccak fuel entry.2 (after.storages.lookup entry.1) = .ok trie)
    (tries : B256 → Option MptNode) :
    ∃ bound, ∀ fuel, bound ≤ fuel → ∃ final,
      collectStorages reader keccak fuel after storages tries = .ok final := by
  have run : ∃ bound, ∀ fuel, bound ≤ fuel → ∀ tries, ∃ final,
      collectStorages reader keccak fuel after storages tries = .ok final := by
    induction storages with
    | nil => exact ⟨0, fun _ _ tries => ⟨tries, rfl⟩⟩
    | cons entry storages ih =>
        rw [List.forall_mem_cons] at h
        obtain ⟨first, hfirst⟩ := h.1
        obtain ⟨rest, hrest⟩ := ih h.2
        refine ⟨max first rest, fun fuel hfuel tries => ?_⟩
        obtain ⟨trie, htrie⟩ := hfirst fuel (le_trans (le_max_left ..) hfuel)
        obtain ⟨final, hfinal⟩ := hrest fuel (le_trans (le_max_right ..) hfuel)
          (Function.update tries entry.1 (some trie))
        exact ⟨final, by rw [collectStorages, bind_eq_ok]; exact ⟨trie, htrie, hfinal⟩⟩
  obtain ⟨bound, hbound⟩ := run
  exact ⟨bound, fun fuel hfuel => hbound fuel hfuel tries⟩

end Inversion

/-- A trie that is built by calls with 32-byte keys. -/
def IsTrie (node : MptNode) : Prop :=
  ∃ calls, (∀ call ∈ calls, call.Allowed ∧ call.Fits ∧ call.key.length = 32) ∧ node = trieOf calls

section

variable (keccak : Bytes → B256)

/-- All accounts with all their slots. -/
structure Complete (F : EthereumState) : Prop where
  state : IsTrie F.stateTrie
  storage : ∀ address, IsTrie (F.storageTrie address)
  account : ∀ address : B256,
    (F.stateTrie.get address.bytes = .ok none ∧ F.storageTrie address = .Null) ∨
      ∃ account : TrieAccount, F.stateTrie.get address.bytes = .ok (some account.encode) ∧
        account.storageRoot = (F.storageTrie address).hash keccak

/-- The accounts that are asked for, each with some of its slots. -/
abbrev Targets := List (B256 × List B256)

theorem Targets.unique {targets : Targets} (hnodup : (targets.map Prod.fst).Nodup)
    {address : B256} {slots slots' : List B256} (h : (address, slots) ∈ targets)
    (h' : (address, slots') ∈ targets) : slots = slots' :=
  congrArg Prod.snd (List.inj_on_of_nodup_map hnodup h h' rfl)

def slotKeys (slots : List B256) : List (List Nibble) := slots.map fun slot => toNibs slot.bytes

/-- What a provider reports for the storage of one account. When it is asked for no slot, it
does not look at the storage and reports the empty root. -/
def StorageReport (trie : MptNode) (slots : List B256) (storage : StorageMultiProof) : Prop :=
  if slots = [] then storage.root = EMPTY_ROOT ∧ storage.subtree = []
  else storage.root = trie.hash keccak ∧ Contains keccak trie (slotKeys slots) storage.subtree

/-- A multiproof for the targets: the nodes on the paths of all accounts, and a report for the
storage of each. -/
structure IsMultiproof (F : EthereumState) (targets : Targets) (proof : MultiProof) : Prop where
  accounts : Contains keccak F.stateTrie (slotKeys (targets.map Prod.fst)) proof.accountSubtree
  storages : ∀ address storage, (address, storage) ∈ proof.storages →
    ∃ slots, (address, slots) ∈ targets ∧ StorageReport keccak (F.storageTrie address) slots storage
  targets : ∀ target ∈ targets, target.1 ∈ proof.storages.map Prod.fst

/-- What is hashed when the tries of all targets are resolved. -/
def hashedEncodings (F F' : EthereumState) (after : MultiProof) : Set Bytes :=
  {encoded |
    encoded ∈ resolvedEncodings keccak F.stateTrie F'.stateTrie after.accountSubtree ∨
      ∃ address, encoded ∈ resolvedEncodings keccak (F.storageTrie address)
        (F'.storageTrie address) (afterSubtree after address)}

/-- Two complete states, such as those before and after a block, with a multiproof of each for the
same targets. None of the encodings that are hashed on the way collide. -/
structure Proved (reader : RlpReader) (F F' : EthereumState) (targets : Targets)
    (before after : MultiProof) : Prop where
  reads : reader.ReadsBack
  empty : keccak [EMPTY_STRING_CODE] = EMPTY_ROOT
  full : Complete keccak F
  full' : Complete keccak F'
  proof : IsMultiproof keccak F targets before
  proof' : IsMultiproof keccak F' targets after
  injOn : Set.InjOn keccak (hashedEncodings keccak F F' after)

end

section

variable {reader : RlpReader} {keccak : Bytes → B256} {F F' : EthereumState} {targets : Targets}
  {before after : MultiProof}

theorem IsTrie.keyed {node : MptNode} (h : IsTrie node) : ∃ t, node = toNode t ∧ Keyed 64 t := by
  obtain ⟨calls, hcalls, rfl⟩ := h
  exact trieOf_keyed hcalls

/-- The account of the full state, and its storage root. -/
theorem Complete.getRlp (h : Complete keccak F) (address : B256) :
    ∃ account, F.stateTrie.getRlp address.bytes = .ok account ∧
      (account.map TrieAccount.storageRoot).getD EMPTY_ROOT =
        (F.storageTrie address).hash keccak := by
  rcases h.account address with ⟨hnone, hnull⟩ | ⟨account, hsome, hroot⟩
  · refine ⟨none, by rw [MptNode.getRlp, hnone], ?_⟩
    rw [hnull]
    rfl
  · refine ⟨some account, ?_, hroot⟩
    rw [MptNode.getRlp, hsome]
    simp only [TrieAccount.decode_encode]

/-- The nodes that the later proof has for an account. -/
theorem IsMultiproof.after_contains (h : IsMultiproof keccak F' targets after) (address : B256) :
    ∃ keys, Contains keccak (F'.storageTrie address) keys (afterSubtree after address) := by
  have hnone : Contains keccak (F'.storageTrie address) [] [] := ⟨by simp, by simp⟩
  rw [afterSubtree]
  cases hlookup : after.storages.lookup address with
  | none => exact ⟨[], hnone⟩
  | some storage =>
      have hmem : (address, storage) ∈ after.storages := by
        obtain ⟨l, r, hsplit, _⟩ := List.lookup_eq_some_iff.mp hlookup
        rw [hsplit]
        simp
      obtain ⟨slots, _, hreport⟩ := h.storages address storage hmem
      rw [StorageReport] at hreport
      split_ifs at hreport
      · refine ⟨[], ?_⟩
        rw [Option.map_some, Option.getD_some, hreport.2]
        exact hnone
      · exact ⟨_, hreport.2⟩

/-- The storage trie for a report ends with the reported root, given enough fuel. -/
theorem Proved.storageTrie (h : Proved keccak reader F F' targets before after)
    {address : B256} {slots : List B256} {storage : StorageMultiProof}
    (hreport : StorageReport keccak (F.storageTrie address) slots storage) :
    ∃ bound, ∀ fuel, bound ≤ fuel → ∃ trie,
      storageTrieFrom reader keccak fuel storage (after.storages.lookup address) = .ok trie := by
  rw [StorageReport] at hreport
  split_ifs at hreport with hslots
  · refine ⟨0, fun fuel _ => ⟨nodeFromDigest storage.root, ?_⟩⟩
    rw [storageTrieFrom, hreport.2]
    rfl
  · obtain ⟨hroot, hcontains⟩ := hreport
    obtain ⟨t, ht, hkeyed⟩ := (h.full.storage address).keyed
    obtain ⟨t', ht', hkeyed'⟩ := (h.full'.storage address).keyed
    obtain ⟨keys, hcontains'⟩ := h.proof'.after_contains address
    have hinj' : Set.InjOn keccak {encoded | encoded ∈ resolvedEncodings keccak
        (F.storageTrie address) (F'.storageTrie address) (afterSubtree after address)} :=
      h.injOn.mono fun _ he => .inr ⟨address, he⟩
    rw [ht] at hcontains hroot hinj'
    rw [ht'] at hcontains' hinj'
    have hkeys : slotKeys slots ≠ [] := by simpa [slotKeys] using hslots
    obtain ⟨rootNode, store, store', w, hbefore, hrun, ⟨bound, hresolve⟩, hview, _⟩ :=
      resolve_contained h.reads h.empty hkeyed hkeyed'.opened hkeyed'.fits hkeys hcontains
        hcontains' hinj'
    refine ⟨bound, fun fuel hfuel => ⟨toNode w, ?_⟩⟩
    rw [storageTrieFrom_eq_ok (hcontains.ne_nil hkeys)]
    rw [← hroot] at hbefore
    refine ⟨rootNode, store, store', hbefore, hrun, hresolve fuel hfuel, ?_⟩
    rw [hroot]
    exact hash_eq_of_reference (view_reference hview)

/-- A storage trie has the hash that was reported. -/
theorem storageTrieFrom_hash {fuel : Nat} {address : B256} {slots : List B256}
    {storage : StorageMultiProof} {node trie : MptNode}
    (hreport : StorageReport keccak node slots storage)
    (h : storageTrieFrom reader keccak fuel storage (after.storages.lookup address) = .ok trie) :
    trie.hash keccak = if slots = [] then EMPTY_ROOT else node.hash keccak := by
  rw [StorageReport] at hreport
  split_ifs at hreport ⊢ with hslots
  · rw [storageTrieFrom, hreport.2] at h
    cases h
    rw [nodeFromDigest, if_pos (.inl hreport.1)]
    rfl
  · have hkeys : slotKeys slots ≠ [] := by simpa [slotKeys] using hslots
    obtain ⟨_, _, _, _, _, _, hhash⟩ := (storageTrieFrom_eq_ok (hreport.2.ne_nil hkeys)).mp h
    rw [hhash, hreport.1]

/-- The nodes of the accounts resolve to a trie in which all targets can be read. -/
theorem Proved.accounts (h : Proved keccak reader F F' targets before after)
    (htargets : targets ≠ []) :
    ∃ (rootNode : MptNode) (store store' : NodeStore) (W : MptNode),
      collectBefore reader keccak (F.stateTrie.hash keccak) before.accountSubtree .Null .empty =
        .ok (rootNode, store) ∧
      collectAfter reader keccak after.accountSubtree store = .ok store' ∧
      (∃ bound, ∀ fuel, bound ≤ fuel → resolveNodes store' fuel rootNode = some W) ∧
      W.hash keccak = F.stateTrie.hash keccak ∧
      ∀ target ∈ targets, W.getRlp target.1.bytes = F.stateTrie.getRlp target.1.bytes := by
  obtain ⟨t, ht, hkeyed⟩ := h.full.state.keyed
  obtain ⟨t', ht', hkeyed'⟩ := h.full'.state.keyed
  have hcontains := h.proof.accounts
  have hcontains' := h.proof'.accounts
  have hinj' : Set.InjOn keccak {encoded | encoded ∈ resolvedEncodings keccak F.stateTrie
      F'.stateTrie after.accountSubtree} := h.injOn.mono fun _ he => .inl he
  rw [ht] at hcontains hinj' ⊢
  rw [ht'] at hcontains' hinj'
  have hkeys : slotKeys (targets.map Prod.fst) ≠ [] := by simpa [slotKeys] using htargets
  obtain ⟨rootNode, store, store', w, hcollect, hrun, hresolve, hview, hread, _⟩ :=
    resolve_contained h.reads h.empty hkeyed hkeyed'.opened hkeyed'.fits hkeys hcontains
      hcontains' hinj'
  refine ⟨rootNode, store, store', toNode w, hcollect, hrun, hresolve,
    hash_eq_of_reference (view_reference hview), fun target hmem => ?_⟩
  have hkey : toNibs target.1.bytes ∈ slotKeys (targets.map Prod.fst) :=
    List.mem_map_of_mem (List.mem_map_of_mem hmem)
  simp only [MptNode.getRlp, MptNode.get, getInternal_toNode,
    hread _ hkey (toNibs_bytes_length target.1)]

/-- With enough fuel a state is built. -/
theorem Proved.ends (h : Proved keccak reader F F' targets before after) (htargets : targets ≠ []) :
    ∃ fuel state, transitionMultiproofsToTries reader keccak fuel
      (F.stateTrie.hash keccak) before after =
      .ok state := by
  obtain ⟨rootNode, store, store', W, hcollect, hrun, ⟨bound, hresolve⟩, hhash, _⟩ :=
    h.accounts htargets
  have hstorages : ∀ entry ∈ before.storages, ∃ bound, ∀ fuel, bound ≤ fuel → ∃ trie,
      storageTrieFrom reader keccak fuel entry.2 (after.storages.lookup entry.1) = .ok trie := by
    intro entry hentry
    obtain ⟨slots, _, hreport⟩ := h.proof.storages entry.1 entry.2 hentry
    exact h.storageTrie hreport
  obtain ⟨more, hmore⟩ := collectStorages_ends before.storages hstorages fun _ => none
  obtain ⟨tries, htries⟩ := hmore (max bound more) (le_max_right ..)
  have hkeys : slotKeys (targets.map Prod.fst) ≠ [] := by simpa [slotKeys] using htargets
  refine ⟨max bound more, ⟨W, tries⟩, ?_⟩
  rw [transition_eq_ok (h.proof.accounts.ne_nil hkeys)]
  exact ⟨rootNode, store, store', hcollect, hrun, htries, hresolve _ (le_max_left ..), hhash⟩

/-- What a built state has for the targets: the accounts of the full state can be read, each
has a storage trie, and the storage tries have the reported roots. -/
structure BuiltState (keccak : Bytes → B256) (F : EthereumState) (targets : Targets)
    (state : EthereumState) : Prop where
  account : ∀ target ∈ targets,
    state.stateTrie.getRlp target.1.bytes = F.stateTrie.getRlp target.1.bytes
  storage : ∀ target ∈ targets, state.storageTries target.1 ≠ none
  root : ∀ address trie, state.storageTries address = some trie →
    ∃ slots, (address, slots) ∈ targets ∧ trie.hash keccak =
      if slots = [] then EMPTY_ROOT else (F.storageTrie address).hash keccak

theorem Proved.builtState (h : Proved keccak reader F F' targets before after) {fuel : Nat}
    {state : EthereumState}
    (hstate : transitionMultiproofsToTries reader keccak fuel
      (F.stateTrie.hash keccak) before after =
      .ok state) : BuiltState keccak F targets state := by
  by_cases hnil : before.accountSubtree = []
  · -- Without nodes there was no target.
    have htargets : targets = [] := by
      by_contra hne
      have hkeys : slotKeys (targets.map Prod.fst) ≠ [] := by simpa [slotKeys] using hne
      exact h.proof.accounts.ne_nil hkeys hnil
    rw [transitionMultiproofsToTries, hnil] at hstate
    cases hstate
    exact ⟨by simp [htargets], by simp [htargets], fun _ _ hnone => nomatch hnone⟩
  · obtain ⟨rootNode, store, store', hcollect, hrun, hstorages, hresolve, _⟩ :=
      (transition_eq_ok hnil).mp hstate
    obtain ⟨hfrom, hthere⟩ := collectStorages_spec hstorages
    refine ⟨fun target hmem => ?_, fun target hmem => ?_, fun address trie htrie => ?_⟩
    · obtain ⟨rootNode', first, second, W, hcollect', hrun', ⟨bound, hW⟩, _, hread⟩ :=
        h.accounts (List.ne_nil_of_mem hmem)
      rw [hcollect] at hcollect'
      cases hcollect'
      rw [hrun] at hrun'
      cases hrun'
      -- Two bounds for the recursion give one result.
      have hsame := resolveNodes_mono (le_max_left fuel bound) hresolve
      rw [hW _ (le_max_right fuel bound)] at hsame
      rw [← Option.some.inj hsame]
      exact hread target hmem
    · exact hthere target.1 (.inr (h.proof.targets target hmem))
    · rcases hfrom address trie htrie with hnone | ⟨storage, hmem, hrun⟩
      · cases hnone
      · obtain ⟨slots, htarget, hreport⟩ := h.proof.storages address storage hmem
        exact ⟨slots, htarget, storageTrieFrom_hash hreport hrun⟩

/-- The client accepts a built state exactly if every account that was asked for without a slot
has the empty storage root. -/
theorem BuiltState.storageRootsMatch_iff {state : EthereumState}
    (h : BuiltState keccak F targets state)
    (hF : Complete keccak F) (hnodup : (targets.map Prod.fst).Nodup) :
    StorageRootsMatch keccak state ↔ ∀ target ∈ targets, target.2 = [] →
      (F.storageTrie target.1).hash keccak = EMPTY_ROOT := by
  constructor
  · intro hmatch target hmem hslots
    obtain ⟨trie, htrie⟩ := Option.ne_none_iff_exists'.mp (h.storage target hmem)
    obtain ⟨slots, htarget, hhash⟩ := h.root target.1 trie htrie
    have hsame : (target.1, slots) = target := List.inj_on_of_nodup_map hnodup htarget hmem rfl
    rw [if_pos ((congrArg Prod.snd hsame).trans hslots)] at hhash
    obtain ⟨account, hread, hroot⟩ := hmatch target.1 trie htrie
    obtain ⟨account', hread', hroot'⟩ := hF.getRlp target.1
    rw [h.account target hmem, hread'] at hread
    cases hread
    rw [← hroot', hroot, hhash]
  · intro hcondition address trie htrie
    obtain ⟨slots, htarget, hhash⟩ := h.root address trie htrie
    obtain ⟨account, hread, hroot⟩ := hF.getRlp address
    refine ⟨account, (h.account _ htarget).trans hread, ?_⟩
    rw [hroot, hhash]
    split_ifs with hslots
    · exact hcondition _ htarget hslots
    · rfl

end

/-- The client accepts what is built from two multiproofs exactly if every account that is asked
for without a slot has the empty storage root. The proofs are for the same targets, and of
complete states. -/
theorem multiproof_state_accepted_iff (reader : RlpReader) (keccak : Bytes → B256)
    (hreader : reader.ReadsBack) (hempty : keccak [EMPTY_STRING_CODE] = EMPTY_ROOT)
    (F F' : EthereumState)
    (hF : Complete keccak F) (hF' : Complete keccak F') (targets : Targets)
    (hnodup : (targets.map Prod.fst).Nodup) (before after : MultiProof)
    (hbefore : IsMultiproof keccak F targets before) (hafter : IsMultiproof keccak F' targets after)
    (hinj : Set.InjOn keccak (hashedEncodings keccak F F' after)) :
    (∀ fuel state,
      transitionMultiproofsToTries reader keccak fuel (F.stateTrie.hash keccak) before after =
        .ok state →
        StorageRootsMatch keccak state) ↔
      ∀ target ∈ targets, target.2 = [] →
        (F.storageTrie target.1).hash keccak = EMPTY_ROOT := by
  have hproved : Proved keccak reader F F' targets before after :=
    ⟨hreader, hempty, hF, hF', hbefore, hafter, hinj⟩
  constructor
  · intro haccepted target hmem hslots
    obtain ⟨fuel, state, hstate⟩ := hproved.ends (List.ne_nil_of_mem hmem)
    have hbuilt := hproved.builtState hstate
    exact (hbuilt.storageRootsMatch_iff hF hnodup).mp (haccepted fuel state hstate) target hmem
      hslots
  · intro hcondition fuel state hstate
    have hbuilt := hproved.builtState hstate
    exact (hbuilt.storageRootsMatch_iff hF hnodup).mpr hcondition

section Sample

theorem trieOf_single {key value : Bytes} (h : value ≠ []) :
    trieOf [.insert key value] = .Leaf (toEncodedPath (toNibs key) true) value := by
  simp [trieOf, runCalls, Call.run, MptNode.insert, h, MptNode.insertInternal]

theorem contains_leaf (keccak : Bytes → B256) (path value : Bytes) (keys : List (List Nibble)) :
    Contains keccak (.Leaf path value) keys [(MptNode.Leaf path value).encode keccak] := by
  refine ⟨fun rlp hrlp => ⟨[], _, self_mem_pathNodes _ [], List.mem_singleton.mp hrlp⟩, ?_⟩
  intro key _ node hnode
  obtain rfl : node = .Leaf path value := by simpa [MptNode.pathNodes] using hnode
  exact .head _

theorem contains_null (keccak : Bytes → B256) (keys : List (List Nibble)) :
    Contains keccak .Null keys [[EMPTY_STRING_CODE]] := by
  refine ⟨fun rlp hrlp => ⟨[], .Null, self_mem_pathNodes _ [], List.mem_singleton.mp hrlp⟩, ?_⟩
  intro key _ node hnode
  obtain rfl : node = .Null := by simpa [MptNode.pathNodes] using hnode
  exact .head _

theorem null_report (keccak : Bytes → B256) : StorageReport keccak .Null [B256.zero]
    ⟨EMPTY_ROOT, [[EMPTY_STRING_CODE]]⟩ := by
  rw [StorageReport, if_neg (by simp)]
  exact ⟨rfl, contains_null _ _⟩

def noState : EthereumState := ⟨.Null, fun _ => none⟩

theorem storageTrie_slotState (address : B256) :
    slotState.storageTrie address = if address = B256.zero then slotLeaf else .Null := by
  by_cases h : address = B256.zero
  · simp [EthereumState.storageTrie, slotState, h]
  · simp [EthereumState.storageTrie, slotState, h]

theorem slotState_complete : Complete slotKeccak slotState where
  state := by
    have hlength : slotAccount.encode.length = 70 := by decide +kernel
    refine ⟨[.insert B256.zero.bytes slotAccount.encode], ?_,
      (trieOf_single slotAccount.encode_ne_nil).symm⟩
    simp [Call.Allowed, Call.Fits, Call.key, slotAccount.encode_ne_nil, B256.length_eq, hlength]
  storage address := by
    rw [storageTrie_slotState]
    split_ifs
    · refine ⟨[.insert B256.zero.bytes [1]], ?_, (trieOf_single (by simp)).symm⟩
      simp [Call.Allowed, Call.Fits, Call.key, B256.length_eq]
    · exact ⟨[], by simp, rfl⟩
  account address := by
    rw [storageTrie_slotState]
    have hget : slotState.stateTrie.get address.bytes =
        if toNibs B256.zero.bytes = toNibs address.bytes then .ok (some slotAccount.encode)
        else .ok none := by
      simp only [slotState, MptNode.get, MptNode.getInternal, prefixNibs_toEncodedPath]
    by_cases h : address = B256.zero
    · subst h
      rw [hget, if_pos rfl, if_pos rfl]
      exact .inr ⟨slotAccount, rfl, by decide +kernel⟩
    · rw [hget, if_neg (toNibs_bytes_ne (Ne.symm h)), if_neg h]
      exact .inl ⟨rfl, rfl⟩

theorem noState_complete (keccak : Bytes → B256) : Complete keccak noState where
  state := ⟨[], by simp, rfl⟩
  storage _ := ⟨[], by simp, rfl⟩
  account _ := .inl ⟨rfl, rfl⟩

/-- What a provider answers about the account before it is removed, with or without its slot. -/
def slotProof (storage : StorageMultiProof) : MultiProof :=
  ⟨[slotState.stateTrie.encode slotKeccak], [(B256.zero, storage)]⟩

def noProof (storage : StorageMultiProof) : MultiProof :=
  ⟨[[EMPTY_STRING_CODE]], [(B256.zero, storage)]⟩

variable {storage : StorageMultiProof}

theorem isMultiproof_slotProof {slots : List B256}
    (h : StorageReport slotKeccak slotLeaf slots storage) :
    IsMultiproof slotKeccak slotState [(B256.zero, slots)] (slotProof storage) where
  accounts := contains_leaf _ _ _ _
  storages address other hmem := by
    obtain ⟨rfl, rfl⟩ := Prod.mk.inj (List.mem_singleton.mp hmem)
    refine ⟨slots, .head _, ?_⟩
    rwa [storageTrie_slotState, if_pos rfl]
  targets target hmem := by
    rw [List.mem_singleton.mp hmem]
    exact .head _

theorem isMultiproof_noProof (keccak : Bytes → B256) {slots : List B256}
    (h : StorageReport keccak .Null slots storage) :
    IsMultiproof keccak noState [(B256.zero, slots)] (noProof storage) where
  accounts := contains_null _ _
  storages address other hmem := by
    obtain ⟨rfl, rfl⟩ := Prod.mk.inj (List.mem_singleton.mp hmem)
    exact ⟨slots, .head _, h⟩
  targets target hmem := by
    rw [List.mem_singleton.mp hmem]
    exact .head _

theorem afterSubtree_noProof (storage : StorageMultiProof) (address : B256) :
    afterSubtree (noProof storage) address =
      if address = B256.zero then storage.subtree else [] := by
  by_cases h : address = B256.zero
  · simp [afterSubtree, noProof, h]
  · rw [afterSubtree, noProof, lookup_cons_of_ne h, if_neg h]
    rfl

/-- No two of the three encodings have one hash. -/
theorem injOn_slotState (h : storage.subtree = [] ∨ storage.subtree = [[EMPTY_STRING_CODE]]) :
    Set.InjOn slotKeccak (hashedEncodings slotKeccak slotState noState (noProof storage)) := by
  refine injOn_slotKeccak.mono ?_
  -- No address but the one of the account has anything to hash.
  have hstorage : ∀ address, ∀ encoded ∈ resolvedEncodings slotKeccak
      (slotState.storageTrie address) .Null (afterSubtree (noProof storage) address),
      encoded ∈ slotStateDigests.map Prod.fst := by
    intro address
    rw [storageTrie_slotState, afterSubtree_noProof]
    split_ifs
    · rcases h with h | h
      · rw [h]
        decide +kernel
      · rw [h]
        decide +kernel
    · decide +kernel
  have hstate : ∀ encoded ∈ resolvedEncodings slotKeccak slotState.stateTrie
      .Null [[EMPTY_STRING_CODE]], encoded ∈ slotStateDigests.map Prod.fst := by
    decide +kernel
  rintro encoded (hmem | ⟨address, hmem⟩)
  · exact hstate encoded hmem
  · exact hstorage address encoded hmem

/-- The account is asked for with its slot, and its state is accepted. -/
theorem multiproof_state_accepted_slot :
    ∃ fuel state,
      transitionMultiproofsToTries strictReader slotKeccak fuel
        (slotState.stateTrie.hash slotKeccak)
        (slotProof ⟨slotAccount.storageRoot, [slotLeaf.encode slotKeccak]⟩)
        (noProof ⟨EMPTY_ROOT, [[EMPTY_STRING_CODE]]⟩) = .ok state ∧
      StorageRootsMatch slotKeccak state := by
  have hempty : slotKeccak [EMPTY_STRING_CODE] = EMPTY_ROOT := by decide +kernel
  have hreport : StorageReport slotKeccak slotLeaf [B256.zero]
      ⟨slotAccount.storageRoot, [slotLeaf.encode slotKeccak]⟩ := by
    rw [StorageReport, if_neg (by simp)]
    exact ⟨by decide +kernel, contains_leaf _ _ _ _⟩
  have hbefore := isMultiproof_slotProof hreport
  have hafter := isMultiproof_noProof slotKeccak (null_report _)
  have hinj := @injOn_slotState ⟨EMPTY_ROOT, [[EMPTY_STRING_CODE]]⟩ (.inr rfl)
  have hproved : Proved slotKeccak strictReader slotState noState _ _ _ :=
    ⟨strictReader_readsBack, hempty, slotState_complete, noState_complete _, hbefore, hafter, hinj⟩
  obtain ⟨fuel, state, hstate⟩ := hproved.ends (by simp)
  have haccepted := (multiproof_state_accepted_iff strictReader slotKeccak strictReader_readsBack
    hempty slotState noState slotState_complete (noState_complete _) [(B256.zero, [B256.zero])]
    (by simp) _ _ hbefore hafter hinj).mpr (by simp)
  exact ⟨fuel, state, hstate, haccepted fuel state hstate⟩

/-- The account is asked for without its slot, and its state is refused. -/
theorem multiproof_state_refused :
    Complete slotKeccak slotState ∧
      Complete slotKeccak noState ∧
      IsMultiproof slotKeccak slotState [(B256.zero, [])]
        (slotProof ⟨EMPTY_ROOT, []⟩) ∧
      IsMultiproof slotKeccak noState [(B256.zero, [])]
        (noProof ⟨EMPTY_ROOT, []⟩) ∧
      ∃ fuel state,
        transitionMultiproofsToTries strictReader slotKeccak fuel
          (slotState.stateTrie.hash slotKeccak) (slotProof ⟨EMPTY_ROOT, []⟩)
          (noProof ⟨EMPTY_ROOT, []⟩) = .ok state ∧
        ¬StorageRootsMatch slotKeccak state := by
  have hreport : ∀ node, StorageReport slotKeccak node [] ⟨EMPTY_ROOT, []⟩ := by
    intro node
    rw [StorageReport, if_pos rfl]
    exact ⟨rfl, rfl⟩
  have hbefore := isMultiproof_slotProof (hreport slotLeaf)
  have hafter := isMultiproof_noProof _ (hreport .Null)
  have hempty : slotKeccak [EMPTY_STRING_CODE] = EMPTY_ROOT := by decide +kernel
  have hinj := @injOn_slotState ⟨EMPTY_ROOT, []⟩ (.inl rfl)
  refine ⟨slotState_complete, noState_complete _, hbefore, hafter, ?_⟩
  have hproved : Proved slotKeccak strictReader slotState noState _ _ _ :=
    ⟨strictReader_readsBack, hempty, slotState_complete, noState_complete _, hbefore, hafter, hinj⟩
  obtain ⟨fuel, state, hstate⟩ := hproved.ends (by simp)
  refine ⟨fuel, state, hstate, fun haccepted => ?_⟩
  have hbuilt := hproved.builtState hstate
  have htarget : ((B256.zero, []) : B256 × List B256) ∈ [(B256.zero, [])] :=
    .head _
  obtain ⟨trie, htrie⟩ := Option.ne_none_iff_exists'.mp (hbuilt.storage _ htarget)
  obtain ⟨slots, hslots, hhash⟩ := hbuilt.root _ trie htrie
  obtain ⟨_, rfl⟩ := Prod.mk.inj (List.mem_singleton.mp hslots)
  obtain ⟨account, hread, hroot⟩ := haccepted _ trie htrie
  have hslot : slotState.stateTrie.getRlp B256.zero.bytes = .ok (some slotAccount) := by
    decide +kernel
  rw [hbuilt.account _ htarget, hslot] at hread
  cases hread
  rw [hhash] at hroot
  exact absurd hroot (by decide +kernel)

end Sample

end FluentStf.Mpt
