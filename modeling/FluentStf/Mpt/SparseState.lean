import FluentStf.Mpt.SparseUpdate
import FluentStf.Mpt.State

/-! The update of a state of which only a part is present. Run next to the update
of the full state, it stops with a panic or stays a partial view of it, as long
as no deletion collapses a branch onto a hidden leaf or extension. -/
namespace FluentStf.Mpt

open Radix

/-- No deletion among the changed slots collapses onto a hidden node, when the
slots are applied to a partial and to a full trie side by side. -/
def SafeSlots : MptNode → MptNode → List (B256 × U256) → Prop
  | _, _, [] => True
  | w, t, slot :: slots =>
      (slot.2 = 0 → ¬CollapsesOntoHidden w t (toNibs slot.1.bytes)) ∧
        SafeSlots (w.applySlot slot).2 (t.applySlot slot).2 slots

/-- The deletions of one changed account are safe. -/
def SafeAccount (post : HashedPostState) (W F : EthereumState) : B256 × Option Account → Prop
  | (address, none) =>
      ¬CollapsesOntoHidden W.stateTrie F.stateTrie (toNibs address.bytes)
  | (address, some _) => ∀ w t,
      W.openStorage address (post.storageOf address) = .ok w →
      F.openStorage address (post.storageOf address) = .ok t →
      SafeSlots w t (post.storageOf address).storage

/-- The deletions of all changed accounts are safe, along both updates. -/
def SafeUpdate (keccak : Bytes → B256) (post : HashedPostState) :
    EthereumState → EthereumState → List (B256 × Option Account) → Prop
  | _, _, [] => True
  | W, F, account :: accounts =>
      SafeAccount post W F account ∧
        ∀ W' F', W.updateAccount keccak post account = .ok W' →
          F.updateAccount keccak post account = .ok F' →
          SafeUpdate keccak post W' F' accounts

section

variable {keccak : Bytes → B256}

/-- A partial view, or the root hash alone. -/
def RootView (keccak : Bytes → B256) (w t : NibbleTrie) : Prop :=
  Trie.View (Hides keccak) w t ∨ w = .stub ((toNode t).hash keccak)

/-- One changed slot on a partial view. -/
theorem applySlot_view {w s : NibbleTrie} (hs : s.Canonical)
    (hview : Trie.View (Hides keccak) w s) {slot : B256 × U256} {b : Bool} {W' : MptNode}
    (hsafe : slot.2 = 0 → ¬CollapsesOntoHidden (toNode w) (toNode s) (toNibs slot.1.bytes))
    (h : (toNode w).applySlot slot = (.ok b, W')) :
    ∃ w' s', W' = toNode w' ∧ (toNode s).applySlot slot = (.ok b, toNode s') ∧
      s'.Canonical ∧ Trie.View (Hides keccak) w' s' := by
  unfold MptNode.applySlot at h ⊢
  split_ifs at h ⊢ with hzero
  · obtain ⟨w', s', rfl, hrun, _, hdelete, hiff⟩ := delete_partialView hs hview h
    exact ⟨w', s', rfl, hrun, (Trie.delete_spec hs hdelete).1, hiff.mpr (hsafe hzero)⟩
  · obtain ⟨w', s', rfl, hrun, hinsert, hview'⟩ := insert_partialView hs hview h
    exact ⟨w', s', rfl, hrun, (Trie.insert_spec hs hinsert).1, hview'⟩

theorem applySlots_view {w s : NibbleTrie} (hs : s.Canonical)
    (hview : Trie.View (Hides keccak) w s) (slots : List (B256 × U256)) {W' : MptNode}
    (hsafe : SafeSlots (toNode w) (toNode s) slots)
    (h : (toNode w).applySlots slots = .ok W') :
    ∃ w' s', W' = toNode w' ∧ (toNode s).applySlots slots = .ok (toNode s') ∧
      Trie.View (Hides keccak) w' s' := by
  induction slots generalizing w s with
  | nil =>
      cases h
      exact ⟨w, s, rfl, rfl, hview⟩
  | cons slot slots ih =>
      rw [MptNode.applySlots] at h ⊢
      cases hstep : (toNode w).applySlot slot with
      | mk result rest =>
          cases result with
          | error e =>
              rw [hstep] at h
              cases h
          | ok b =>
              obtain ⟨w', s', rfl, hrun, hcan, hview'⟩ := applySlot_view hs hview hsafe.1 hstep
              have hrest := hsafe.2
              rw [hstep] at h hrest
              rw [hrun] at hrest ⊢
              exact ih hcan hview' hrest h

/-- Nothing can be changed below a bare root hash. -/
theorem applySlots_digest {d : B256} {slots : List (B256 × U256)} {W' : MptNode}
    (h : (MptNode.Digest d).applySlots slots = .ok W') : slots = [] := by
  cases slots with
  | nil => rfl
  | cons slot slots =>
      rw [MptNode.applySlots, MptNode.applySlot] at h
      split_ifs at h <;> cases h

theorem applySlots_rootView {w s : NibbleTrie} (hs : s.Canonical) (hview : RootView keccak w s)
    {slots : List (B256 × U256)} {W' : MptNode}
    (hsafe : SafeSlots (toNode w) (toNode s) slots)
    (h : (toNode w).applySlots slots = .ok W') :
    ∃ F', (toNode s).applySlots slots = .ok F' ∧ W'.hash keccak = F'.hash keccak := by
  rcases hview with hview | rfl
  · obtain ⟨w', s', rfl, hrun, hview'⟩ := applySlots_view hs hview slots hsafe h
    exact ⟨toNode s', hrun, hash_eq_of_reference (view_reference hview')⟩
  · obtain rfl := applySlots_digest h
    cases h
    exact ⟨toNode s, rfl, rfl⟩

/-- An account of the full state and of a partial one. In the full state, the
entry of the state trie and the storage trie belong together; the partial state
has a view of that storage trie or none at all. -/
structure AccountTracks (keccak : Bytes → B256) (W F : EthereumState) (t s : NibbleTrie)
    (address : B256) : Prop where
  full : F.storageTrie address = toNode s
  canonical : s.Canonical
  shown : W.storageTrie address = .Null ∨
    ∃ w, W.storageTrie address = toNode w ∧ Trie.View (Hides keccak) w s
  root : s ≠ .null → (toNode s).hash keccak ≠ EMPTY_ROOT ∧ (toNode s).hash keccak ≠ B256.zero
  account : (t.entry (toNibs address.bytes) = none ∧ s = .null) ∨
    ∃ account : TrieAccount, t.entry (toNibs address.bytes) = some (.inl account.encode) ∧
      account.storageRoot = (toNode s).hash keccak

theorem getRlp_absent {t : NibbleTrie} {address : B256}
    (h : t.lookup (toNibs address.bytes) = .ok none) :
    (toNode t).getRlp address.bytes = .ok none := by
  rw [MptNode.getRlp, MptNode.get, getInternal_toNode, h]
  rfl

theorem getRlp_present {t : NibbleTrie} {address : B256} {account : TrieAccount}
    (h : t.lookup (toNibs address.bytes) = .ok (some account.encode)) :
    (toNode t).getRlp address.bytes = .ok (some account) := by
  rw [MptNode.getRlp, MptNode.get, getInternal_toNode, h]
  simp only [lookupResult, TrieAccount.decode_encode]

namespace AccountTracks

variable {W F : EthereumState} {w t s : NibbleTrie} {address : B256}

/-- The storage trie of the full state is not replaced by any root. -/
theorem recover_full (h : AccountTracks keccak W F t s address) (ht : Open t)
    (hF : F.stateTrie = toNode t) : F.recoverStorage address = .ok (toNode s) := by
  rw [EthereumState.recoverStorage, h.full, isEmpty_toNode]
  by_cases hs : s = .null
  · subst hs
    have hlookup : t.lookup (toNibs address.bytes) = _ :=
      Trie.lookup_eq_entry fun q d _ => ht q d
    rcases h.account with ⟨hentry, _⟩ | ⟨account, hentry, hroot⟩
    · rw [hentry] at hlookup
      simp [isNull, hF, getRlp_absent hlookup]
    · rw [hentry] at hlookup
      have hempty : account.storageRoot = EMPTY_ROOT := hroot
      simp [isNull, hF, getRlp_present hlookup, hempty]
  · rw [if_neg (mt isNull_iff.mp hs)]

/-- The partial state starts from a view or from the root hash of the full
storage trie, or its account cannot be written. -/
theorem recover_partial (h : AccountTracks keccak W F t s address)
    (hW : W.stateTrie = toNode w) (hview : Trie.View (Hides keccak) w t) {X : MptNode}
    (hX : W.recoverStorage address = .ok X) :
    (∃ x, X = toNode x ∧ RootView keccak x s) ∨
      ∀ v, w.insert v (toNibs address.bytes) = none := by
  rw [EthereumState.recoverStorage] at hX
  split_ifs at hX with hempty
  · have hnull : W.storageTrie address = .Null := by
      cases hn : W.storageTrie address with
      | Null => rfl
      | _ => simp [hn, MptNode.isEmpty] at hempty
    rw [hnull] at hX
    cases hlookup : w.lookup (toNibs address.bytes) with
    | error d =>
        refine .inr fun v => ?_
        cases hinsert : w.insert v (toNibs address.bytes) with
        | none => rfl
        | some w' =>
            obtain ⟨x, hx⟩ := Trie.lookup_of_insert hinsert
            rw [hlookup] at hx
            cases hx
    | ok x =>
        refine .inl ?_
        have hentry := Trie.entry_of_lookup (Trie.lookup_view hview hlookup)
        rcases h.account with ⟨hnone, rfl⟩ | ⟨account, hsome, hroot⟩
        · rw [hnone] at hentry
          obtain rfl : x = none := by simpa using hentry.symm
          rw [hW, getRlp_absent hlookup] at hX
          cases hX
          exact ⟨.null, rfl, .inl .null⟩
        · rw [hsome] at hentry
          obtain rfl : x = some account.encode := by
            cases x <;> simp at hentry
            rw [hentry]
          rw [hW, getRlp_present hlookup] at hX
          simp only at hX
          split_ifs at hX with hknown
          · cases hX
            exact ⟨.stub account.storageRoot, rfl, .inr (by rw [hroot])⟩
          · cases hX
            have hs : s = .null := by
              by_contra hne
              rw [hroot] at hknown
              exact hknown (h.root hne)
            exact ⟨.null, rfl, .inl (by rw [hs]; exact .null)⟩
  · cases hX
    rcases h.shown with hnull | ⟨x, hx, hxview⟩
    · simp [hnull, MptNode.isEmpty] at hempty
    · exact .inl ⟨x, hx, .inl hxview⟩

/-- The storage tries that the changed slots are applied to. -/
theorem openStorage (h : AccountTracks keccak W F t s address) (ht : Open t)
    (hW : W.stateTrie = toNode w) (hF : F.stateTrie = toNode t)
    (hview : Trie.View (Hides keccak) w t) {storage : HashedStorage} {X : MptNode}
    (hX : W.openStorage address storage = .ok X) :
    (∃ x s', X = toNode x ∧ F.openStorage address storage = .ok (toNode s') ∧ s'.Canonical ∧
        RootView keccak x s') ∨
      ∀ v, w.insert v (toNibs address.bytes) = none := by
  rw [EthereumState.openStorage] at hX
  rw [EthereumState.openStorage, h.recover_full ht hF]
  cases hrecover : W.recoverStorage address with
  | error e =>
      rw [hrecover] at hX
      cases hX
  | ok trie =>
      rw [hrecover] at hX
      rcases h.recover_partial hW hview hrecover with ⟨x, rfl, hx⟩ | hstuck
      · refine .inl ?_
        cases hX
        by_cases hwiped : storage.wiped = true
        · simp only [hwiped, if_true]
          exact ⟨.null, .null, rfl, rfl, trivial, .inl .null⟩
        · simp only [hwiped]
          exact ⟨x, s, rfl, rfl, h.canonical, hx⟩
      · exact .inr hstuck

end AccountTracks

/-- A partial state next to the full one, with the accounts that are still to be
changed. -/
structure Tracks (keccak : Bytes → B256) (pending : List B256) (W F : EthereumState)
    (w t : NibbleTrie) : Prop where
  shown : W.stateTrie = toNode w
  full : F.stateTrie = toNode t
  view : Trie.View (Hides keccak) w t
  canonical : t.Canonical
  opened : Open t
  account : ∀ address ∈ pending, ∃ s, AccountTracks keccak W F t s address

theorem Open.update {t t' : NibbleTrie} (h : Open t) {k : List Nibble} {x : Option Bytes}
    (he : t'.entry = Function.update t.entry k (x.map .inl)) : Open t' := by
  intro q d
  rw [he]
  by_cases hq : q = k
  · subst hq
    cases x <;> simp
  · rw [Function.update_of_ne hq]
    exact h q d

/-- Accounts other than the changed one are not affected. -/
theorem AccountTracks.frame {W F W' F' : EthereumState} {t t' s : NibbleTrie} {address other : B256}
    (h : AccountTracks keccak W F t s other) (hother : other ≠ address)
    (hW : W'.storageTrie other = W.storageTrie other)
    (hF : F'.storageTrie other = F.storageTrie other) {x : Option (Bytes ⊕ B256)}
    (he : t'.entry = Function.update t.entry (toNibs address.bytes) x) :
    AccountTracks keccak W' F' t' s other := by
  have hentry : t'.entry (toNibs other.bytes) = t.entry (toNibs other.bytes) := by
    rw [he, Function.update_of_ne (toNibs_bytes_ne hother)]
  exact ⟨hF ▸ h.full, h.canonical, hW ▸ h.shown, h.root, hentry ▸ h.account⟩

/-- One changed account, on a partial state and on the full one. -/
theorem updateAccount_tracks {post : HashedPostState} {W F W' : EthereumState} {w t : NibbleTrie}
    {pending : List B256} {change : B256 × Option Account}
    (h : Tracks keccak (change.1 :: pending) W F w t) (hnew : change.1 ∉ pending)
    (hsafe : SafeAccount post W F change)
    (hstep : W.updateAccount keccak post change = .ok W') :
    ∃ F' w' t', F.updateAccount keccak post change = .ok F' ∧
      Tracks keccak pending W' F' w' t' := by
  obtain ⟨address, account⟩ := change
  have hne : ∀ other ∈ pending, other ≠ address := fun other ho he => hnew (he ▸ ho)
  cases account with
  | none =>
      rw [EthereumState.updateAccount] at hstep ⊢
      rw [h.shown] at hstep
      cases hdelete : (toNode w).delete address.bytes with
      | mk result rest =>
          rw [hdelete] at hstep
          cases result with
          | error e => cases hstep
          | ok b =>
              cases hstep
              obtain ⟨w', t', rfl, hrun, _, ht', hiff⟩ :=
                delete_partialView h.canonical h.view hdelete
              obtain ⟨hcan, hentry⟩ := Trie.delete_spec h.canonical ht'
              have hsafe' : ¬CollapsesOntoHidden (toNode w) (toNode t) (toNibs address.bytes) := by
                rw [← h.shown, ← h.full]
                exact hsafe
              have hrun' : F.stateTrie.delete address.bytes = (.ok b, toNode t') := by
                rw [h.full]
                exact hrun
              rw [hrun']
              refine ⟨_, w', t', rfl, rfl, rfl, hiff.mpr hsafe', hcan,
                h.opened.update (x := none) hentry, fun other ho => ?_⟩
              obtain ⟨s, hs⟩ := h.account other (.tail _ ho)
              exact ⟨s, hs.frame (hne other ho) rfl rfl hentry⟩
  | some account =>
      rw [EthereumState.updateAccount] at hstep ⊢
      obtain ⟨s, htracks⟩ := h.account address (.head _)
      cases hopen : W.openStorage address (post.storageOf address) with
      | error e =>
          rw [hopen] at hstep
          cases hstep
      | ok X =>
          simp only [hopen] at hstep
          cases hslots : X.applySlots (post.storageOf address).storage with
          | error e =>
              rw [hslots] at hstep
              cases hstep
          | ok trieW =>
              simp only [hslots, h.shown] at hstep
              rcases htracks.openStorage h.opened h.shown h.full h.view hopen with
                ⟨x, s', rfl, hfull, hcan, hroot⟩ | hstuck
              · obtain ⟨trieF, hrun, hhash⟩ := applySlots_rootView hcan hroot
                  (hsafe (toNode x) (toNode s') hopen hfull) hslots
                simp only [hfull, hrun, h.full]
                rw [hhash] at hstep
                split at hstep
                · rename_i b stateTrie hinsert
                  cases hstep
                  obtain ⟨w', t', rfl, hrun', ht', hview'⟩ :=
                    insert_partialView h.canonical h.view hinsert
                  obtain ⟨hcan', _, hentry⟩ := Trie.insert_spec h.canonical ht'
                  rw [MptNode.insertRlp, hrun']
                  refine ⟨_, w', t', rfl, rfl, rfl, hview', hcan',
                    h.opened.update (x := some _) hentry, fun other ho => ?_⟩
                  obtain ⟨r, hr⟩ := h.account other (.tail _ ho)
                  refine ⟨r, hr.frame (hne other ho) ?_ ?_ hentry⟩ <;>
                    simp [EthereumState.storageTrie, hne other ho]
                · cases hstep
              · obtain ⟨e, he⟩ := insertInternal_stops (hstuck _)
                rw [MptNode.insertRlp, he] at hstep
                cases hstep

/-- All changed accounts. The roots agree whenever the partial update succeeds. -/
theorem updateAccounts_tracks {post : HashedPostState} {W F W' : EthereumState}
    {w t : NibbleTrie} (accounts : List (B256 × Option Account))
    (h : Tracks keccak (accounts.map Prod.fst) W F w t) (hnodup : (accounts.map Prod.fst).Nodup)
    (hsafe : SafeUpdate keccak post W F accounts)
    (hrun : W.updateAccounts keccak post accounts = .ok W') :
    ∃ F', F.updateAccounts keccak post accounts = .ok F' ∧
      W'.stateRoot keccak = F'.stateRoot keccak := by
  induction accounts generalizing W F w t with
  | nil =>
      cases hrun
      refine ⟨F, rfl, ?_⟩
      rw [EthereumState.stateRoot, EthereumState.stateRoot, h.shown, h.full]
      exact hash_eq_of_reference (view_reference h.view)
  | cons change accounts ih =>
      rw [EthereumState.updateAccounts] at hrun ⊢
      rw [List.map_cons, List.nodup_cons] at hnodup
      cases hstep : W.updateAccount keccak post change with
      | error e =>
          rw [hstep] at hrun
          cases hrun
      | ok next =>
          rw [hstep] at hrun
          obtain ⟨F', w', t', hF', htracks⟩ := updateAccount_tracks h hnodup.1 hsafe.1 hstep
          rw [hF']
          exact ih htracks hnodup.2 (hsafe.2 next F' hstep hF') hrun

end

end FluentStf.Mpt
