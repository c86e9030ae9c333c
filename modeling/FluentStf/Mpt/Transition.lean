import FluentStf.Mpt.ProofNodes

/-! Proofs from before and after a transition are enough to replay it. The nodes
on the paths of the changed keys, before and after, and the short forms of the
later ones resolve every node that the changes move, in whatever order they are
applied. -/
namespace FluentStf.Mpt

open Radix

/-- A changed key with its new value, or none if the key is deleted. -/
abbrev Change := Bytes × Option Bytes

def Change.call : Change → Call
  | (key, some value) => .insert key value
  | (key, none) => .delete key

/-- One change of a free key, on a trie that may have hidden parts. -/
theorem Change.run_free {w : NibbleTrie} (hw : w.Canonical) (change : Change)
    (hallowed : change.call.Allowed) (hfree : w.Free (toNibs change.1)) :
    ∃ reply w', change.call.run (toNode w) = (.ok reply, toNode w') ∧ w'.Canonical ∧
      w'.entry = Function.update w.entry (toNibs change.1) (change.2.map .inl) := by
  obtain ⟨key, value⟩ := change
  cases value with
  | none =>
      obtain ⟨w', hw'⟩ := Trie.delete_of_free hw hfree
      obtain ⟨hcan, hentry⟩ := Trie.delete_spec hw hw'
      have hstep := deleteInternal_toNode hw hw'
      exact ⟨_, w', by simp only [call, Call.run, MptNode.delete, hstep]; rfl, hcan, hentry⟩
  | some value =>
      obtain ⟨w', hw'⟩ := Trie.insert_of_free value hw hfree
      obtain ⟨hcan, _, hentry⟩ := Trie.insert_spec hw hw'
      have hstep := insertInternal_toNode hw hw'
      have hne : value ≠ [] := hallowed
      exact ⟨_, w', by simp only [call, Call.run, MptNode.insert, if_neg hne, hstep]; rfl, hcan,
        hentry⟩

/-- Keys of one length run above or below each other only if they are equal. -/
theorem toNibs_beside {a b : Bytes} (h : a.length = b.length) :
    toNibs a <+: toNibs b ∨ toNibs b <+: toNibs a → toNibs a = toNibs b := by
  have hlength : (toNibs a).length = (toNibs b).length := by
    rw [toNibs_length, toNibs_length, h]
  rintro (hab | hba)
  · exact hab.eq_of_length hlength
  · exact (hba.eq_of_length hlength.symm).symm

/-- Changes of free keys all succeed, and set exactly their entries. -/
theorem runChanges_free {w : NibbleTrie} (hw : w.Canonical) (changes : List Change)
    (hallowed : ∀ change ∈ changes, change.call.Allowed)
    (hlength : ∀ change ∈ changes, change.1.length = 32)
    (hnodup : (changes.map Prod.fst).Nodup)
    (hfree : ∀ change ∈ changes, w.Free (toNibs change.1)) :
    ∃ (replies : List Reply) (w' : NibbleTrie), runCalls (toNode w) (changes.map Change.call) =
        (replies.map .ok, toNode w') ∧ w'.Canonical ∧
      (∀ k, (∀ change ∈ changes, k ≠ toNibs change.1) → w'.entry k = w.entry k) ∧
      ∀ change ∈ changes, w'.entry (toNibs change.1) = change.2.map .inl := by
  induction changes generalizing w with
  | nil => exact ⟨[], w, rfl, hw, fun _ _ => rfl, by simp⟩
  | cons change changes ih =>
      simp only [List.forall_mem_cons] at hallowed hlength hfree
      rw [List.map_cons, List.nodup_cons] at hnodup
      obtain ⟨reply, w₁, hstep, hcan₁, hentry₁⟩ := change.run_free hw hallowed.1 hfree.1
      have hfree₁ : ∀ other ∈ changes, w₁.Free (toNibs other.1) := fun other ho =>
        (hfree.2 other ho).update hentry₁
          (toNibs_beside (hlength.1.trans (hlength.2 other ho).symm))
      obtain ⟨replies, w', hrun, hcan, hframe, hset⟩ :=
        ih hcan₁ hallowed.2 hlength.2 hnodup.2 hfree₁
      refine ⟨reply :: replies, w', ?_, hcan, ?_, ?_⟩
      · simp only [List.map_cons, runCalls, hstep, hrun]
      · intro k hk
        simp only [List.forall_mem_cons] at hk
        rw [hframe k hk.2, hentry₁, Function.update_of_ne hk.1]
      · simp only [List.forall_mem_cons]
        refine ⟨?_, hset⟩
        rw [hframe, hentry₁, Function.update_self]
        intro other ho hsame
        exact hnodup.1 (List.mem_map.mpr ⟨other, ho, (toNibs_injective hsame).symm⟩)

section

variable {keccak : Bytes → B256} {t t' : NibbleTrie} {keys : List (List Nibble)}

/-- The nodes on the paths of some keys, as they stand in a proof. -/
def IsProof (keccak : Bytes → B256) (trie : MptNode) (keys : List (List Nibble))
    (nodes : List MptNode) : Prop :=
  ∀ node, node ∈ nodes ↔ ∃ key ∈ keys, ∃ shown ∈ trie.pathNodes key, node = shown.shallow keccak

/-- The proof that lists the paths one after the other. -/
def proofOf (keccak : Bytes → B256) (trie : MptNode) (keys : List (List Nibble)) : List MptNode :=
  keys.flatMap fun key => (trie.pathNodes key).map (MptNode.shallow keccak)

theorem isProof_proofOf (keccak : Bytes → B256) (trie : MptNode) (keys : List (List Nibble)) :
    IsProof keccak trie keys (proofOf keccak trie keys) := by
  intro node
  simp [proofOf, eq_comm]

/-- Nodes of a trie, as they stand in a proof. -/
def NodesOf (keccak : Bytes → B256) (t : NibbleTrie) (nodes : List MptNode) : Prop :=
  ∀ node ∈ nodes, ∃ q u, Trie.NodeAt t q u ∧ node = (toNode u).shallow keccak

/-- The nodes at positions on the paths of some keys are there. -/
def OnPaths (keccak : Bytes → B256) (t : NibbleTrie) (keys : List (List Nibble))
    (nodes : List MptNode) : Prop :=
  ∀ key ∈ keys, ∀ q u, Trie.NodeAt t q u → u ≠ .null → q <+: key →
    (toNode u).shallow keccak ∈ nodes

theorem IsProof.nodesOf {nodes : List MptNode} (h : IsProof keccak (toNode t) keys nodes) :
    NodesOf keccak t nodes := by
  intro node hnode
  obtain ⟨key, _, shown, hshown, rfl⟩ := (h node).mp hnode
  obtain ⟨q, u, hu, rfl⟩ := nodeAt_of_mem_pathNodes hshown
  exact ⟨q, u, hu, rfl⟩

theorem IsProof.onPaths {nodes : List MptNode} (h : IsProof keccak (toNode t) keys nodes) :
    OnPaths keccak t keys nodes :=
  fun key hkey _ u hu hne hq =>
    (h _).mpr ⟨key, hkey, toNode u, mem_pathNodes_of_nodeAt hu hne hq, rfl⟩

/-- What two proofs and the short forms of the second hash. -/
def proofEncodings (keccak : Bytes → B256) (trie trie' : MptNode) (after : List MptNode) :
    List Bytes :=
  trie.encodings keccak ++ trie'.encodings keccak ++
    (after.flatMap shortened).map (MptNode.encode keccak)

theorem hides_ne_null {d : B256} {u : NibbleTrie} (h : Hides keccak d u) : u ≠ .null := by
  rintro rfl
  exact not_hides_null keccak d h

/-- The store of two proofs. -/
theorem known_of_proofs {before after : List MptNode} {store : NodeStore} (ht : Open t)
    (ht' : Open t') (hbefore : NodesOf keccak t before) (hafter : NodesOf keccak t' after)
    (hstore : store.Holds keccak ({node | node ∈ before} ∪
      {node | ∃ a ∈ after, node = a ∨ node ∈ shortened a})) :
    Known keccak (proofEncodings keccak (toNode t) (toNode t') after) store := by
  intro d node hnode
  obtain ⟨hmem, href⟩ := hstore.sound _ _ hnode
  have hides : ∀ x, node = (toNode x).shallow keccak → Hides keccak d x := by
    rintro x rfl
    rw [Hides, ← MptNode.reference_shallow, href]
  rcases hmem with hb | ⟨a, ha, rfl | hshort⟩
  · obtain ⟨q, u, hu, hshown⟩ := hbefore node hb
    have hd := hides u hshown
    refine ⟨u, ht.nodeAt hu, fun e he => ?_, hshown, hd⟩
    exact List.mem_append_left _ (List.mem_append_left _
      (encodings_nodeAt hu (hides_ne_null hd) he))
  · obtain ⟨q, u, hu, hshown⟩ := hafter node ha
    have hd := hides u hshown
    refine ⟨u, ht'.nodeAt hu, fun e he => ?_, hshown, hd⟩
    exact List.mem_append_left _ (List.mem_append_right _
      (encodings_nodeAt hu (hides_ne_null hd) he))
  · obtain ⟨q, u, hu, rfl⟩ := hafter a ha
    have hencode : node.encode keccak ∈ (after.flatMap shortened).map (MptNode.encode keccak) :=
      List.mem_map.mpr ⟨node, List.mem_flatMap.mpr ⟨_, ha, hshort⟩, rfl⟩
    rcases mem_shortened.mp hshort with ⟨p, v, i, rfl, _, hnode⟩ | ⟨p, c, i, rfl, _, hnode⟩
    · refine ⟨.leaf (p.drop i) v, ?_, fun e he => ?_, hnode, hides _ hnode⟩
      · intro q d
        by_cases hq : q = p.drop i <;> simp [Trie.entry, hq]
      · rw [hnode] at hencode
        obtain rfl : e = _ := by simpa [toNode, MptNode.encodings] using he
        exact List.mem_append_right _ hencode
    · refine ⟨.ext (p.drop i) c, (ht'.nodeAt hu).ext_child.ext _, fun e he => ?_, hnode,
        hides _ hnode⟩
      rw [hnode, toNode, MptNode.shallow, MptNode.encode,
        MptNode.reference_orDigest (MptNode.reference_shallow _)] at hencode
      rw [toNode, MptNode.encodings, List.mem_cons] at he
      rcases he with rfl | he
      · exact List.mem_append_right _ hencode
      · exact List.mem_append_left _ (List.mem_append_right _
          (encodings_nodeAt hu (by simp) (encodings_toNode_ext p c he)))

/-- A key is free of hidden nodes if none is on its path. -/
theorem Keyed.free_of_shown {w : NibbleTrie} (ht : Keyed 64 t)
    (hview : Trie.View (Hides keccak) w t) {key : List Nibble} (hlength : key.length = 64)
    (hshown : ∀ q u d, w.entry q = some (.inr d) → Trie.NodeAt t q u → q <+: key →
      ¬Hides keccak d u) : w.Free key := by
  intro q x hq hbeside
  cases x with
  | inl v =>
      have hq64 : q.length = 64 := ht.length q _ (Trie.view_entry_inl hview hq)
      refine ⟨?_, v, rfl⟩
      rcases hbeside with hle | hle
      · exact hle.eq_of_length (hq64.trans hlength.symm)
      · exact (hle.eq_of_length (hlength.trans hq64.symm)).symm
  | inr d =>
      exfalso
      obtain ⟨u, hu, hd⟩ := Trie.view_entry_inr hview hq
      refine hshown q u d hq hu ?_ hd
      rcases hbeside with hle | hle
      · exact hle
      · -- Entries below the key would be longer than any key.
        obtain ⟨k, y, hk⟩ :=
          (Trie.nodeAt_canonical ht.canonical hu).exists_entry (hides_ne_null hd)
        have hlen := ht.length (q ++ k) y (by rw [hu.entry ht.canonical, hk])
        have hle' := hle.length_le
        rw [List.length_append] at hlen
        rw [hle.eq_of_length (by omega)]

/-- Free keys read as in the full trie. -/
theorem lookup_of_free {w : NibbleTrie} (hview : Trie.View (Hides keccak) w t) {k : List Nibble}
    (hk : w.Free k) : w.lookup k = t.lookup k := by
  have hread : w.lookup k = .ok ((w.entry k).bind Sum.getLeft?) := by
    refine Trie.lookup_eq_entry fun q d hq hd => ?_
    obtain ⟨-, v, hv⟩ := hk q _ hd (.inl hq)
    cases hv
  rw [hread, Trie.lookup_view hview hread]

/-- Nothing on the path of a changed key stays hidden. -/
theorem free_of_resolved {before : List MptNode} {store : NodeStore} {nodes : Set MptNode}
    {w : NibbleTrie} (ht : Keyed 64 t) (hbefore : OnPaths keccak t keys before)
    (hstore : store.Holds keccak nodes) (hnodes : ∀ node ∈ before, node ∈ nodes)
    (hview : Trie.View (Hides keccak) w t)
    (hstubs : ∀ q d, w.entry q = some (.inr d) → store (.Digest d) = none) {key : List Nibble}
    (hkey : key ∈ keys) (hlength : key.length = 64) : w.Free key := by
  refine ht.free_of_shown hview hlength fun q u d hq hu hpre hd => ?_
  have hfull := hstore.full _ (hnodes _ (hbefore key hkey q u hu (hides_ne_null hd) hpre))
  rw [MptNode.reference_shallow, hd] at hfull
  exact hfull (hstubs q d hq)

/-- A hidden node stays where it is: it is on no path of a changed key, and if a
later node took over its path, it would be one of the short forms. -/
theorem stays_of_resolved {before after : List MptNode} {store : NodeStore} {w : NibbleTrie}
    (ht : t.Canonical) (ht' : t'.Canonical) (hsame : ∀ k, k ∉ keys → t'.entry k = t.entry k)
    (hbefore : OnPaths keccak t keys before) (hafter : OnPaths keccak t' keys after)
    (hstore : store.Holds keccak ({node | node ∈ before} ∪
      {node | ∃ a ∈ after, node = a ∨ node ∈ shortened a}))
    (hstubs : ∀ q d, w.entry q = some (.inr d) → store (.Digest d) = none) {q : List Nibble}
    {d : B256} {u : NibbleTrie} (hq : w.entry q = some (.inr d)) (hu : Trie.NodeAt t q u)
    (hd : Hides keccak d u) : Trie.NodeAt t' q u := by
  have hne := hides_ne_null hd
  have missing : (toNode u).shallow keccak ∉ {node | node ∈ before} ∪
      {node | ∃ a ∈ after, node = a ∨ node ∈ shortened a} := by
    intro hmem
    have hfull := hstore.full _ hmem
    rw [MptNode.reference_shallow, hd] at hfull
    exact hfull (hstubs q d hq)
  have hoff : ∀ k ∈ {k | k ∈ keys}, ¬q <+: k := fun k hk hpre =>
    missing (.inl (hbefore k hk q u hu hne hpre))
  rcases hu.after_change ht ht' hsame hne hoff with hstay | ⟨r, s, k, hk, hr, hnode, hpath⟩
  · exact hstay
  · refine False.elim (missing (.inr ⟨_, hafter k hk r _ hnode ?_ hr, .inr
      (shallow_mem_shortened s hne hpath)⟩))
    simpa using hne

end

/-- The nibbles of the changed keys. -/
def changedKeys (changes : List Change) : List (List Nibble) :=
  changes.map fun change => toNibs change.1

theorem not_mem_changedKeys {changes : List Change} {k : List Nibble} :
    k ∉ changedKeys changes ↔ ∀ change ∈ changes, k ≠ toNibs change.1 := by
  simp [changedKeys, eq_comm]

/-- Take the proofs of the changed keys before and after a transition. The root
node before it resolves to a trie with the root hash of the whole, and on that
trie the changes succeed in every order and end in the root hash after it. -/
theorem transition_proofs_replay (keccak : Bytes → B256) (calls : List Call)
    (hcalls : ∀ call ∈ calls, call.Allowed ∧ call.Fits ∧ call.key.length = 32)
    (changes : List Change)
    (hchanges : ∀ change ∈ changes, change.call.Allowed ∧ change.1.length = 32)
    (hnodup : (changes.map Prod.fst).Nodup) (before after : List MptNode)
    (hbefore : IsProof keccak (trieOf calls) (changedKeys changes) before)
    (hafter : IsProof keccak (trieOf (calls ++ changes.map Change.call))
      (changedKeys changes) after)
    (hinj : Set.InjOn keccak {encoded | encoded ∈ MptNode.hashed (proofEncodings keccak
      (trieOf calls) (trieOf (calls ++ changes.map Change.call)) after)}) :
    ∃ store W bound, transitionStore keccak before after = .ok store ∧
      (∀ fuel, bound ≤ fuel →
        resolveNodes store fuel ((trieOf calls).shallow keccak) = some W) ∧
      W.hash keccak = (trieOf calls).hash keccak ∧
      ∀ order : List Change, order.Perm changes →
        (∀ reply ∈ (runCalls W (order.map Change.call)).1, ∃ answer, reply = .ok answer) ∧
        (runCalls W (order.map Change.call)).2.hash keccak =
          (trieOf (calls ++ changes.map Change.call)).hash keccak := by
  obtain ⟨t, hnode, ht⟩ := trieOf_keyed hcalls
  -- The trie after the transition, by its entries.
  have hfree : ∀ change ∈ changes, t.Free (toNibs change.1) := fun change hc =>
    ht.free (by rw [toNibs_length, (hchanges change hc).2])
  obtain ⟨replies, t', hrun, hcan', hframe', hset'⟩ := runChanges_free ht.canonical changes
    (fun c hc => (hchanges c hc).1) (fun c hc => (hchanges c hc).2) hnodup hfree
  have hnode' : trieOf (calls ++ changes.map Change.call) = toNode t' := by
    rw [trieOf, runCalls_append, ← trieOf, hnode, hrun]
  have hopen' : Open t' := by
    intro q d
    by_cases hq : q ∈ changedKeys changes
    · obtain ⟨change, hc, rfl⟩ := List.mem_map.mp hq
      rw [hset' change hc]
      cases change.2 <;> simp
    · rw [hframe' q (not_mem_changedKeys.mp hq)]
      exact ht.opened q d
  rw [hnode] at hbefore hinj ⊢
  rw [hnode'] at hafter hinj ⊢
  -- The store, and what the root node resolves to.
  have hnibs : ∀ node ∈ after, ∃ nibs, node.nibs = .ok nibs := by
    intro node hmem
    obtain ⟨q, u, _, rfl⟩ := hafter.nodesOf node hmem
    exact nibs_shallow u
  obtain ⟨store, hstore, hholds⟩ := transitionStore_holds keccak before hnibs
  have hknown := known_of_proofs ht.opened hopen' hbefore.nodesOf hafter.nodesOf hholds
  obtain ⟨w, ⟨bound, hresolve⟩, hview, hstubs⟩ := resolved_shallow hknown hinj t ht.opened ht.fits
    fun e he => List.mem_append_left _ (List.mem_append_left _ he)
  have hwcan := Trie.view_canonical (not_hides_null keccak) hview ht.canonical
  refine ⟨store, toNode w, bound, hstore, hresolve,
    hash_eq_of_reference (view_reference hview), fun order horder => ?_⟩
  -- The changes on the resolved trie, in the given order.
  obtain ⟨answers, w', hrunw, hwcan', hframe, hset⟩ := runChanges_free hwcan order
    (fun c hc => (hchanges c (horder.mem_iff.mp hc)).1)
    (fun c hc => (hchanges c (horder.mem_iff.mp hc)).2)
    ((horder.map Prod.fst).nodup_iff.mpr hnodup)
    (fun c hc => free_of_resolved ht hbefore.onPaths hholds (fun _ => .inl) hview hstubs
      (List.mem_map.mpr ⟨c, horder.mem_iff.mp hc, rfl⟩)
      (by rw [toNibs_length, (hchanges c (horder.mem_iff.mp hc)).2]))
  rw [hrunw]
  refine ⟨by simp, ?_⟩
  have hshows : Trie.Shows (Hides keccak) w' t' := by
    refine hview.shows.after_change {k | k ∈ changedKeys changes} ?_ ?_ ?_ ?_ ?_
    · intro k hk
      exact hframe k fun c hc => not_mem_changedKeys.mp hk c (horder.mem_iff.mp hc)
    · exact fun k hk => hframe' k (not_mem_changedKeys.mp hk)
    · intro k hk
      obtain ⟨change, hc, rfl⟩ := List.mem_map.mp hk
      exact ⟨change.2, hset change (horder.mem_iff.mpr hc), hset' change hc⟩
    · intro k hk
      obtain ⟨change, hc, rfl⟩ := List.mem_map.mp hk
      exact hfree change hc
    · intro q d u hq hu hd
      exact stays_of_resolved ht.canonical hcan'
        (fun k hk => hframe' k (not_mem_changedKeys.mp hk)) hbefore.onPaths hafter.onPaths hholds
        hstubs hq hu hd
  exact hash_eq_of_reference
    (view_reference (hshows.view (not_hides_null keccak) hwcan' hcan'))

/-- The first of two accounts is deleted, so that the second leaf moves up. -/
def firstDeleted : List Change := [(List.replicate 32 0, none)]

/-- Keccak-256 of the short forms of the leaf that remains, other than the leaf
itself and the one it was before. -/
def shortFormDigests : List (Bytes × B256) :=
  [([0xe2, 0xa0, 0x31] ++ List.replicate 31 0 ++ [2],
      .ofNat 0xdab3746a4a9a614911782aa7499fdd916b96381140a8540fc64811e2eeba515a),
    ([0xe1, 0x9f, 0x30] ++ List.replicate 30 0 ++ [2],
      .ofNat 0xd41cea109d5e7ba8df6f57153e7fe06af185a6fa8c4334c466224ef3655ab6db),
    ([0xe1, 0x9f, 0x20] ++ List.replicate 30 0 ++ [2],
      .ofNat 0xd2765f8d7f765f4c10e5b3c8a7a0cdc7ede54421333e1fa32620f7e9cdbd04fa),
    ([0xe0, 0x9e, 0x30] ++ List.replicate 29 0 ++ [2],
      .ofNat 0x8005dda2c302c17a0f10a99b9f77f1ca9db552f08fd590a41641d866214f6e8e),
    ([0xe0, 0x9e, 0x20] ++ List.replicate 29 0 ++ [2],
      .ofNat 0x03805702b00add4d5bd0e3d2273dd239bb297264a983f8a68d74b4cf7a0df277),
    ([0xdf, 0x9d, 0x30] ++ List.replicate 28 0 ++ [2],
      .ofNat 0x81c08d26bc1027e087cfd213761bd101a5a86e40e108c65023aefc77160104bb),
    ([0xdf, 0x9d, 0x20] ++ List.replicate 28 0 ++ [2],
      .ofNat 0x09d544aa02a8ef34c363336b9bba2253832aa3a306aae1ed2f013550f0897c31)]

def firstDeletedDigests : List (Bytes × B256) := twoAccountsDigests ++ shortFormDigests

theorem transition_proofs_replay_first_deleted :
    ∃ store W bound, transitionStore (tableHash firstDeletedDigests)
        (proofOf (tableHash firstDeletedDigests) (trieOf twoAccounts) (changedKeys firstDeleted))
        (proofOf (tableHash firstDeletedDigests)
          (trieOf (twoAccounts ++ firstDeleted.map Change.call)) (changedKeys firstDeleted)) =
          .ok store ∧
      (∀ fuel, bound ≤ fuel → resolveNodes store fuel
        ((trieOf twoAccounts).shallow (tableHash firstDeletedDigests)) = some W) ∧
      W.hash (tableHash firstDeletedDigests) =
        (trieOf twoAccounts).hash (tableHash firstDeletedDigests) ∧
      ∀ order : List Change, order.Perm firstDeleted →
        (∀ reply ∈ (runCalls W (order.map Change.call)).1, ∃ answer, reply = .ok answer) ∧
        (runCalls W (order.map Change.call)).2.hash (tableHash firstDeletedDigests) =
          (trieOf (twoAccounts ++ firstDeleted.map Change.call)).hash
            (tableHash firstDeletedDigests) := by
  refine transition_proofs_replay (tableHash firstDeletedDigests) twoAccounts ?_ firstDeleted ?_ ?_
    _ _ (isProof_proofOf _ _ _) (isProof_proofOf _ _ _) ?_
  · simp [twoAccounts, Call.Allowed, Call.Fits, Call.key]
  · simp [firstDeleted, Change.call, Call.Allowed]
  · simp [firstDeleted]
  · exact injOn_tableHash (by decide +kernel) (by decide +kernel)

end FluentStf.Mpt
