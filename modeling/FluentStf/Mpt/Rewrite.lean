import FluentStf.Mpt.Multiproof
import FluentStf.Mpt.Shown
import FluentStf.Mpt.UpdateOrder

/-! Tries of which a part is hidden, and on which a known transition can be carried out. The keys
that change can be written, and what is hidden stays where it is until the end. On the way a
branch may collapse onto a hidden node, so the tries in between need not be right; the last one
is. -/
namespace FluentStf.Mpt

open Radix

/-- Words of a trie with their new values. -/
abbrev Writes := List (B256 × Option Bytes)

namespace MptNode

/-- The writes one after the other. -/
def putAll (node : MptNode) (writes : Writes) : Option MptNode :=
  writes.foldlM (fun node write => node.put write.1.bytes write.2) node

theorem putAll_cons (node : MptNode) (write : B256 × Option Bytes) (writes : Writes) :
    node.putAll (write :: writes) =
      (node.put write.1.bytes write.2).bind fun next => next.putAll writes := by
  rw [putAll, List.foldlM_cons]
  rfl

/-- The changed slots of an account as writes. -/
theorem foldlM_putSlot (trie : MptNode) (slots : List (B256 × U256)) :
    slots.foldlM putSlot trie =
      trie.putAll (slots.map fun slot => (slot.1, slotValue slot.2)) := by
  rw [putAll, List.foldlM_map]
  rfl

end MptNode

/-- What writes that succeed make of a trie. -/
theorem putAll_spec {w : NibbleTrie} (hw : w.Canonical) {writes : Writes}
    (hnodup : (writes.map Prod.fst).Nodup) {node : MptNode}
    (h : (toNode w).putAll writes = some node) :
    ∃ w' : NibbleTrie, node = toNode w' ∧ w'.Canonical ∧
      (∀ k, (∀ write ∈ writes, k ≠ toNibs write.1.bytes) → w'.entry k = w.entry k) ∧
      ∀ write ∈ writes, w'.entry (toNibs write.1.bytes) = write.2.map .inl := by
  induction writes generalizing w with
  | nil =>
      cases h
      exact ⟨w, rfl, hw, fun _ _ => rfl, by simp⟩
  | cons write writes ih =>
      rw [List.map_cons, List.nodup_cons] at hnodup
      rw [MptNode.putAll_cons, MptNode.put_toNode hw, Option.bind_eq_some_iff] at h
      obtain ⟨_, hput, hrest⟩ := h
      obtain ⟨w₁, hw₁, rfl⟩ := Option.map_eq_some_iff.mp hput
      obtain ⟨hcan₁, hentry₁⟩ := Trie.put_spec hw hw₁
      obtain ⟨w', rfl, hcan, hframe, hset⟩ := ih hcan₁ hnodup.2 hrest
      refine ⟨w', rfl, hcan, fun k hk => ?_, ?_⟩
      · rw [List.forall_mem_cons] at hk
        rw [hframe k hk.2, hentry₁, Function.update_of_ne hk.1]
      · rw [List.forall_mem_cons]
        refine ⟨?_, hset⟩
        rw [hframe, hentry₁, Function.update_self]
        intro other hother hsame
        have hword : write.1 = other.1 := B256.ext (toNibs_injective hsame)
        exact hnodup.1 (hword ▸ List.mem_map_of_mem hother)

/-- Free words can be written. -/
theorem putAll_of_free {w : NibbleTrie} (hw : w.Canonical) {writes : Writes}
    (hfree : ∀ write ∈ writes, w.Free (toNibs write.1.bytes)) :
    ∃ node, (toNode w).putAll writes = some node := by
  induction writes generalizing w with
  | nil => exact ⟨_, rfl⟩
  | cons write writes ih =>
      rw [List.forall_mem_cons] at hfree
      obtain ⟨w₁, hw₁⟩ := Trie.put_of_free hw hfree.1 write.2
      obtain ⟨hcan₁, hentry₁⟩ := Trie.put_spec hw hw₁
      have hfree₁ : ∀ other ∈ writes, w₁.Free (toNibs other.1.bytes) := fun other ho =>
        (hfree.2 other ho).update hentry₁
          (toNibs_beside (write.1.length_eq.trans other.1.length_eq.symm))
      obtain ⟨node, hnode⟩ := ih hcan₁ hfree₁
      refine ⟨node, ?_⟩
      rw [MptNode.putAll_cons, MptNode.put_toNode hw, hw₁]
      exact hnode

/-- The writes that lead from one map to another lead from the trie of the one to that of the
other. -/
theorem Builds.putAll {contents contents' : Bytes → Option Bytes} {node node' : MptNode}
    (h : Builds contents node) (h' : Builds contents' node') {writes : Writes}
    (hnodup : (writes.map Prod.fst).Nodup)
    (hset : ∀ write ∈ writes, contents' write.1.bytes = write.2 ∧ write.2 ≠ some [])
    (hframe : ∀ key, (∀ write ∈ writes, key ≠ write.1.bytes) → contents' key = contents key) :
    node.putAll writes = some node' := by
  induction writes generalizing contents node with
  | nil =>
      have hsame : contents' = contents := funext fun key => hframe key (by simp)
      rw [hsame] at h'
      exact congrArg some (h.unique h')
  | cons write writes ih =>
      rw [List.map_cons, List.nodup_cons] at hnodup
      rw [List.forall_mem_cons] at hset
      obtain ⟨next, hput, hnext⟩ := h.put write.1.length_eq hset.1.2
      rw [MptNode.putAll_cons, hput]
      refine ih hnext hnodup.2 hset.2 fun key hkey => ?_
      by_cases hself : key = write.1.bytes
      · rw [hself, Function.update_self]
        exact hset.1.1
      · rw [Function.update_of_ne hself]
        refine hframe key ?_
        rw [List.forall_mem_cons]
        exact ⟨hself, hkey⟩

/-- A view of a trie in which the words of a transition can be written, and in which all that is
hidden is still there after the transition. -/
structure Rewritable (keccak : Bytes → B256) (words : List B256) (w t t' : NibbleTrie) : Prop where
  view : Trie.View (Hides keccak) w t
  keyed : Keyed 64 t
  free : ∀ word ∈ words, w.Free (toNibs word.bytes)
  stays : ∀ q d u, w.entry q = some (.inr d) → Trie.NodeAt t q u → Hides keccak d u →
    Trie.NodeAt t' q u

namespace Rewritable

variable {keccak : Bytes → B256} {words : List B256} {w t t' : NibbleTrie}

theorem canonical (h : Rewritable keccak words w t t') : w.Canonical :=
  Trie.view_canonical (not_hides_null keccak) h.view h.keyed.canonical

/-- An empty trie, to which words are added. -/
theorem empty (words : List B256) (t' : NibbleTrie) : Rewritable keccak words .null .null t' where
  view := .null
  keyed := by
    obtain ⟨t, ht, hkeyed⟩ := Builds.empty.keyed (by simp)
    rwa [toNode_eq_null ht.symm] at hkeyed
  free _ _ _ _ hq := by cases hq
  stays _ _ _ hq := by cases hq

/-- Nothing is shown, and nothing changes. -/
theorem stub (ht : Keyed 64 t) (hne : t ≠ .null) :
    Rewritable keccak [] (.stub ((toNode t).hash keccak)) t t where
  view := .stub (ht.reference_eq_digest hne)
  keyed := ht
  free := by simp
  stays _ _ _ _ hu _ := hu

section Store

variable {store : NodeStore} (ht : Keyed 64 t) (hview : Trie.View (Hides keccak) w t)
  (hstubs : ∀ q d, w.entry q = some (.inr d) → store (.Digest d) = none)
  (hpaths : ∀ word ∈ words, ∀ q u d, Trie.NodeAt t q u → q <+: toNibs word.bytes →
    Hides keccak d u → store (.Digest d) ≠ none)

include ht hview hstubs hpaths

/-- If the store has the nodes on the path of a word, nothing is hidden there. -/
theorem free_of_store : ∀ word ∈ words, w.Free (toNibs word.bytes) := fun word hword =>
  ht.free_of_shown hview (toNibs_bytes_length word) fun q u d hq hu hpre hd =>
    hpaths word hword q u d hu hpre hd (hstubs q d hq)

/-- A view whose hidden nodes are those that are not in a store. It is enough that the store has
the nodes on the paths of the words before the transition, and the ends of the paths of those
after it. -/
theorem of_store (ht' : t'.Canonical)
    (hends : ∀ word ∈ words, ∀ r s u d, Trie.NodeAt t' r (Trie.graft s u) → ¬u.IsNode →
      r <+: toNibs word.bytes → Hides keccak d u → store (.Digest d) ≠ none)
    (hsame : ∀ k, (∀ word ∈ words, k ≠ toNibs word.bytes) → t'.entry k = t.entry k) :
    Rewritable keccak words w t t' where
  view := hview
  keyed := ht
  free := free_of_store ht hview hstubs hpaths
  stays q d u hq hu hd := by
    have hoff : ∀ k ∈ {k | ∃ word ∈ words, k = toNibs word.bytes}, ¬q <+: k := by
      rintro _ ⟨word, hword, rfl⟩ hpre
      exact hpaths word hword q u d hu hpre hd (hstubs q d hq)
    have hsame' : ∀ k, k ∉ {k | ∃ word ∈ words, k = toNibs word.bytes} →
        t'.entry k = t.entry k := fun k hk =>
      hsame k fun word hword heq => hk ⟨word, hword, heq⟩
    rcases hu.after_change ht.canonical ht' hsame' (hides_ne_null hd) hoff with
      hstay | ⟨r, s, _, ⟨word, hword, rfl⟩, hr, hnode, hpath⟩
    · exact hstay
    · exact absurd (hstubs q d hq) (hends word hword r s u d hnode hpath hr hd)

end Store

theorem mono (h : Rewritable keccak words w t t') {words' : List B256} (hsub : words' ⊆ words) :
    Rewritable keccak words' w t t' :=
  ⟨h.view, h.keyed, fun word hword => h.free word (hsub hword), h.stays⟩

/-- The writes of the transition succeed on the view, and the root is right at the end. -/
theorem putAll (h : Rewritable keccak words w t t') (ht' : t'.Canonical) {writes : Writes}
    (hwords : ∀ write ∈ writes, write.1 ∈ words) (hnodup : (writes.map Prod.fst).Nodup)
    (hframe : ∀ k, (∀ write ∈ writes, k ≠ toNibs write.1.bytes) → t'.entry k = t.entry k)
    (hset : ∀ write ∈ writes, t'.entry (toNibs write.1.bytes) = write.2.map .inl) :
    ∃ node, (toNode w).putAll writes = some node ∧
      node.hash keccak = (toNode t').hash keccak := by
  obtain ⟨_, hnode⟩ := putAll_of_free h.canonical fun write hwrite => h.free _ (hwords write hwrite)
  obtain ⟨w', rfl, hcan, hframew, hsetw⟩ := putAll_spec h.canonical hnodup hnode
  refine ⟨_, hnode, hash_eq_of_reference (view_reference ?_)⟩
  have hshows : Trie.Shows (Hides keccak) w' t' := by
    refine h.view.shows.after_change {k | ∃ write ∈ writes, k = toNibs write.1.bytes} ?_ ?_ ?_ ?_
      h.stays
    · exact fun k hk => hframew k fun write hwrite hsame => hk ⟨write, hwrite, hsame⟩
    · exact fun k hk => hframe k fun write hwrite hsame => hk ⟨write, hwrite, hsame⟩
    · rintro _ ⟨write, hwrite, rfl⟩
      exact ⟨write.2, hsetw write hwrite, hset write hwrite⟩
    · rintro _ ⟨write, -, rfl⟩
      exact h.keyed.free (toNibs_bytes_length write.1)
  exact hshows.view (not_hides_null keccak) hcan ht'

end Rewritable

theorem toNode_injective : Function.Injective toNode := by
  intro s
  induction s with
  | null =>
      intro t h
      exact (toNode_eq_null h.symm).symm
  | stub d =>
      intro t h
      cases t <;> simp_all [toNode]
  | leaf p v =>
      intro t h
      cases t with
      | leaf q u =>
          simp only [toNode, MptNode.Leaf.injEq] at h
          rw [(toEncodedPath_inj h.1).1, h.2]
      | _ => simp [toNode] at h
  | ext p c ih =>
      intro t h
      cases t with
      | ext q d =>
          simp only [toNode, MptNode.Extension.injEq] at h
          rw [(toEncodedPath_inj h.1).1, ih h.2]
      | _ => simp [toNode] at h
  | branch f ih =>
      intro t h
      cases t with
      | branch g =>
          simp only [toNode_branch, MptNode.Branch.injEq] at h
          refine congrArg _ (funext fun i => ?_)
          have hi := congrFun h i
          by_cases hf : f i = .null
          · by_cases hg : g i = .null
            · rw [hf, hg]
            · rw [hf, toChild_of_ne hg] at hi
              cases hi
          · by_cases hg : g i = .null
            · rw [hg, toChild_of_ne hf] at hi
              cases hi
            · rw [toChild_of_ne hf, toChild_of_ne hg] at hi
              exact ih i (Option.some.inj hi)
      | _ => simp [toNode] at h

/-- A transition from one trie to another can be carried out on a node that shows a part of the
first. -/
def RewritesTo (keccak : Bytes → B256) (words : List B256) (W T T' : MptNode) : Prop :=
  ∃ w t t', W = toNode w ∧ T = toNode t ∧ T' = toNode t' ∧ t'.Canonical ∧
    Rewritable keccak words w t t'

section

variable {keccak : Bytes → B256} {words : List B256} {W T T' : MptNode}

theorem RewritesTo.putAll (h : RewritesTo keccak words W T T') {writes : Writes}
    (hwords : ∀ write ∈ writes, write.1 ∈ words) (hnodup : (writes.map Prod.fst).Nodup)
    (hfull : T.putAll writes = some T') :
    ∃ node, W.putAll writes = some node ∧ node.hash keccak = T'.hash keccak := by
  obtain ⟨w, t, t', rfl, rfl, rfl, hcan, h⟩ := h
  obtain ⟨_, hsame, -, hframe, hset⟩ := putAll_spec h.keyed.canonical hnodup hfull
  rw [← toNode_injective hsame] at hframe hset
  exact h.putAll hcan hwords hnodup hframe hset

theorem RewritesTo.mono (h : RewritesTo keccak words W T T') {words' : List B256}
    (hsub : words' ⊆ words) : RewritesTo keccak words' W T T' := by
  obtain ⟨w, t, t', hW, hT, hT', hcan, h⟩ := h
  exact ⟨w, t, t', hW, hT, hT', hcan, h.mono hsub⟩

theorem RewritesTo.empty {t' : NibbleTrie} (ht' : t'.Canonical) :
    RewritesTo keccak words .Null .Null (toNode t') :=
  ⟨.null, .null, t', rfl, rfl, rfl, ht', .empty words t'⟩

/-- A node that shows a part of a trie. Some words can be read in it, and if no others change, the
transition to the later trie can be carried out on it. -/
structure Reveals (keccak : Bytes → B256) (words : List B256) (W T T' : MptNode) : Prop where
  hash : W.hash keccak = T.hash keccak
  levelled : W.Levelled
  read : ∀ word ∈ words, W.get word.bytes = T.get word.bytes
  rewrites : (∀ word : B256, word ∉ words → T'.get word.bytes = T.get word.bytes) →
    RewritesTo keccak words W T T'

/-- Entries are compared by reading words. -/
theorem Keyed.entry_eq_of_get {t t' : NibbleTrie} (ht : Keyed 64 t) (ht' : Keyed 64 t')
    (h : ∀ word : B256, word ∉ words →
      (toNode t').get word.bytes = (toNode t).get word.bytes) {k : List Nibble}
    (hk : ∀ word ∈ words, k ≠ toNibs word.bytes) : t'.entry k = t.entry k := by
  by_cases hlength : k.length = 64
  · obtain ⟨key, hkey, rfl⟩ := exists_key hlength
    have hread := h ⟨key, hkey⟩ fun hmem => hk _ hmem rfl
    simp only [MptNode.get, getInternal_toNode, ht.lookup, ht'.lookup, lookupResult,
      Except.ok.injEq] at hread
    have hvalue : ∀ {t : NibbleTrie}, Keyed 64 t → t.entry (toNibs key) =
        ((t.entry (toNibs key)).bind Sum.getLeft?).map Sum.inl := by
      intro t ht
      cases hentry : t.entry (toNibs key) with
      | none => rfl
      | some x =>
          cases x with
          | inl v => rfl
          | inr d => exact absurd hentry (ht.opened _ d)
    rw [hvalue ht, hvalue ht', hread]
  · have hnone : ∀ {t : NibbleTrie}, Keyed 64 t → t.entry k = none := fun ht =>
      Option.eq_none_iff_forall_ne_some.mpr fun x hx => hlength (ht.length k x hx)
    rw [hnone ht, hnone ht']

/-- A trie whose hidden nodes are those that are not in a store. -/
theorem Reveals.of_store {store : NodeStore} {w t t' : NibbleTrie} (ht : Keyed 64 t)
    (ht' : Keyed 64 t') (hview : Trie.View (Hides keccak) w t)
    (hstubs : ∀ q d, w.entry q = some (.inr d) → store (.Digest d) = none)
    (hpaths : ∀ word ∈ words, ∀ q u d, Trie.NodeAt t q u → q <+: toNibs word.bytes →
      Hides keccak d u → store (.Digest d) ≠ none)
    (hends : ∀ word ∈ words, ∀ r s u d, Trie.NodeAt t' r (Trie.graft s u) → ¬u.IsNode →
      r <+: toNibs word.bytes → Hides keccak d u → store (.Digest d) ≠ none) :
    Reveals keccak words (toNode w) (toNode t) (toNode t') where
  hash := hash_eq_of_reference (view_reference hview)
  levelled := ⟨w, rfl, Trie.levelled_of_view (not_hides_null keccak) hview ht.canonical ht.length⟩
  read word hword := by
    have hfree := Rewritable.free_of_store ht hview hstubs hpaths word hword
    rw [MptNode.get, MptNode.get, getInternal_toNode, getInternal_toNode,
      lookup_of_free hview hfree]
  rewrites hsame := ⟨w, t, t', rfl, rfl, rfl, ht'.canonical,
    .of_store ht hview hstubs hpaths ht'.canonical hends
      fun _ hk => ht.entry_eq_of_get ht' hsame hk⟩

/-- A bare root shows nothing, and nothing can change. -/
theorem Reveals.root {t t' : NibbleTrie} (ht : Keyed 64 t) (ht' : Keyed 64 t')
    (hempty : (toNode t).hash keccak = EMPTY_ROOT → t = .null)
    (hzero : (toNode t).hash keccak ≠ B256.zero) :
    Reveals keccak [] (nodeFromDigest ((toNode t).hash keccak)) (toNode t) (toNode t') := by
  have hsame : (∀ word : B256, word ∉ ([] : List B256) →
      (toNode t').get word.bytes = (toNode t).get word.bytes) → t' = t := fun h =>
    ht'.canonical.eq_of_entry ht.canonical
      (funext fun k => ht.entry_eq_of_get ht' h (by simp))
  by_cases hnull : t = .null
  · subst hnull
    have hnode : nodeFromDigest ((toNode .null).hash keccak) = .Null := if_pos (.inl rfl)
    rw [hnode]
    exact ⟨rfl, MptNode.levelled_null, by simp, fun _ => .empty ht'.canonical⟩
  · have hnode : nodeFromDigest ((toNode t).hash keccak) = .Digest ((toNode t).hash keccak) :=
      if_neg (by simp [hzero, mt hempty hnull])
    rw [hnode]
    refine ⟨rfl, MptNode.levelled_digest _, by simp, fun h => ?_⟩
    rw [hsame h]
    exact ⟨.stub _, t, t, rfl, rfl, rfl, ht.canonical, .stub ht hnull⟩

end

section State

variable {keccak : Bytes → B256} {post : HashedPostState} {W : EthereumState}

/-- As far as the state trie goes, changed accounts are writes that are known beforehand. -/
theorem EthereumState.Levelled.putAccounts (h : W.Levelled)
    {changes : List (B256 × Option Account)} (hnodup : (changes.map Prod.fst).Nodup)
    {value : B256 × Option Account → Option Bytes}
    (hwrite : ∀ change ∈ changes, ∃ trie,
      W.accountWrite keccak post change = some (trie, value change)) :
    (changes.foldlM (EthereumState.putAccount keccak post) W).map EthereumState.stateTrie =
      W.stateTrie.putAll (changes.map fun change => (change.1, value change)) := by
  induction changes generalizing W with
  | nil => rfl
  | cons change changes ih =>
      rw [List.map_cons, List.nodup_cons] at hnodup
      rw [List.forall_mem_cons] at hwrite
      obtain ⟨⟨stored, hstored⟩, hrest⟩ := hwrite
      have hput : W.putAccount keccak post change =
          (W.stateTrie.put change.1.bytes (value change)).map fun trie =>
            ⟨trie, EthereumState.storeTrie W.storageTries change.1 stored⟩ := by
        rw [EthereumState.putAccount, hstored, Option.bind_some]
      rw [List.foldlM_cons, List.map_cons, MptNode.putAll_cons]
      cases htrie : W.stateTrie.put change.1.bytes (value change) with
      | none =>
          rw [hput, htrie]
          rfl
      | some trie =>
          rw [htrie, Option.map_some] at hput
          rw [hput]
          refine ih (h.putAccount hput) hnodup.2 fun other hother => ?_
          have hne : other.1 ≠ change.1 := fun hsame =>
            hnodup.1 (hsame ▸ List.mem_map_of_mem hother)
          rw [EthereumState.accountWrite_putAccount h hne hput]
          exact hrest other hother

/-- A block as a transition of the state trie and of the storage tries of its accounts. On what
is shown of them, the update does not panic and computes the root after the block. -/
theorem update_rewritten (h : W.Levelled) (hdistinct : post.Distinct)
    {accounts accounts' : B256 → Option TrieAccount} {T T' : MptNode}
    (hT : Builds (accountContents accounts) T) (hT' : Builds (accountContents accounts') T')
    (hstate : RewritesTo keccak (post.accounts.map Prod.fst) W.stateTrie T T')
    (hframe : ∀ address, address ∉ post.accounts.map Prod.fst →
      accounts' address = accounts address)
    (hremoved : ∀ address, (address, none) ∈ post.accounts → accounts' address = none)
    (hkept : ∀ address account, (address, some account) ∈ post.accounts → ∃ opened S S',
      W.openStorage address (post.storageOf address) = .ok opened ∧
      RewritesTo keccak ((post.storageOf address).storage.map Prod.fst) opened S S' ∧
      S.putAll ((post.storageOf address).storage.map fun slot =>
        (slot.1, MptNode.slotValue slot.2)) = some S' ∧
      accounts' address =
        some ⟨account.nonce, account.balance, S'.hash keccak, account.getBytecodeHash⟩) :
    ∃ W', W.update keccak post = .ok W' ∧ W'.stateRoot keccak = T'.hash keccak := by
  have hwrite : ∀ change ∈ post.accounts, ∃ trie, W.accountWrite keccak post change =
      some (trie, (accounts' change.1).map TrieAccount.encode) := by
    rintro ⟨address, account⟩ hmem
    cases account with
    | none => exact ⟨none, by rw [hremoved address hmem]; rfl⟩
    | some account =>
        obtain ⟨opened, S, S', hopen, hrewrites, hfull, haccount⟩ := hkept address account hmem
        obtain ⟨trie, htrie, hhash⟩ := hrewrites.putAll
          (by simp only [List.mem_map]; rintro _ ⟨slot, hslot, rfl⟩; exact ⟨slot, hslot, rfl⟩)
          (by rw [List.map_map]; exact hdistinct.slots address) hfull
        refine ⟨some trie, ?_⟩
        simp only [EthereumState.accountWrite, hopen, Except.toOption, Option.bind_some,
          MptNode.foldlM_putSlot, htrie, Option.map_some, haccount, hhash]
  have hwrites := h.putAccounts hdistinct.accounts hwrite
  have hwords : (post.accounts.map fun change =>
      (change.1, (accounts' change.1).map TrieAccount.encode)).map Prod.fst =
        post.accounts.map Prod.fst := by
    rw [List.map_map]
    rfl
  have hfull : T.putAll (post.accounts.map fun change =>
      (change.1, (accounts' change.1).map TrieAccount.encode)) = some T' := by
    refine hT.putAll hT' (by rw [hwords]; exact hdistinct.accounts) ?_ fun key hkey => ?_
    · rintro _ hmem
      obtain ⟨change, -, rfl⟩ := List.mem_map.mp hmem
      refine ⟨by rw [accountContents, onWords_bytes], ?_⟩
      cases accounts' change.1 with
      | none => simp
      | some account => simpa using account.encode_ne_nil
    · rw [accountContents, accountContents, onWords, onWords]
      split_ifs with hlength
      · rw [hframe]
        intro hmem
        obtain ⟨change, hchange, hsame⟩ := List.mem_map.mp hmem
        refine hkey _ (List.mem_map_of_mem hchange) ?_
        rw [hsame]
      · rfl
  obtain ⟨node, hnode, hhash⟩ := hstate.putAll
    (fun write hwrite => by rw [← hwords]; exact List.mem_map_of_mem hwrite)
    (by rw [hwords]; exact hdistinct.accounts) hfull
  rw [hnode, Option.map_eq_some_iff] at hwrites
  obtain ⟨W', hrun, rfl⟩ := hwrites
  refine ⟨W', ?_, hhash⟩
  rw [EthereumState.update, EthereumState.updateAccounts_eq, hrun]

end State

end FluentStf.Mpt
