import FluentStf.Mpt.Decode
import FluentStf.Mpt.State
import FluentStf.Mpt.Transition

/-! States from multiproofs. The nodes of two multiproofs, from before and after a block, are
read and resolved into a state trie and one storage trie for each account that was asked for.
The client accepts the state if every storage trie has the root that its account has in the
state trie. -/
namespace FluentStf.Mpt

open Radix

/-- The nodes of the slots that were asked for. The paths they are stored under are not read. -/
structure StorageMultiProof where
  root : B256
  subtree : List Bytes

/-- The nodes on the paths of all targets, as RLP and in any order. -/
structure MultiProof where
  accountSubtree : List Bytes
  storages : List (B256 × StorageMultiProof)

inductive FromProofError where
  | NodeNotFoundByHash (index : Nat)
  | NodeHasInvalidSuccessor (index : Nat)
  | NodeCannotHaveChildren (index : Nat)
  | MismatchedStorageRoot (address : Bytes) (found expected : B256)
  | MismatchedStateRoot (found expected : B256)
  | DecodingError (e : NodeDecodeError)
deriving DecidableEq

/-- A returned error or a panic, or the bound for the recursion of `resolveNodes` was too
small. -/
inductive ProofFault where
  | error (e : FromProofError)
  | panic
  | unfinished
deriving DecidableEq

/-- The trie behind a bare root. -/
def nodeFromDigest (digest : B256) : MptNode :=
  if digest = EMPTY_ROOT ∨ digest = B256.zero then .Null else .Digest digest

def decodeProofNode (reader : RlpReader) (rlp : Bytes) : Except ProofFault MptNode :=
  match MptNode.decodeWith reader rlp with
  | .ok node => .ok node
  | .error .panic => .error .panic
  | .error e => .error (.error (.DecodingError e))

section

variable (reader : RlpReader) (keccak : Bytes → B256)

/-- Store the nodes from before the block. The last one with the hash of the root is taken for
the root. -/
def collectBefore (root : B256) :
    List Bytes → MptNode → NodeStore → Except ProofFault (MptNode × NodeStore)
  | [], rootNode, store => .ok (rootNode, store)
  | rlp :: rest, rootNode, store => do
      let node ← decodeProofNode reader rlp
      collectBefore root rest (if node.hash keccak = root then node else rootNode)
        (store.insert (node.reference keccak) node)

/-- Add the nodes from after the block, with their short forms. -/
def collectAfter : List Bytes → NodeStore → Except ProofFault NodeStore
  | [], store => .ok store
  | rlp :: rest, store => do
      let node ← decodeProofNode reader rlp
      match addAfter keccak store node with
      | .error _ => .error .panic
      | .ok store => collectAfter rest store

def resolveTrie (fuel : Nat) (store : NodeStore) (rootNode : MptNode) :
    Except ProofFault MptNode :=
  match resolveNodes store fuel rootNode with
  | some trie => .ok trie
  | none => .error .unfinished

def mergeAfter (after : Option StorageMultiProof) (store : NodeStore) :
    Except ProofFault NodeStore :=
  match after with
  | some after => collectAfter reader keccak after.subtree store
  | none => .ok store

/-- The storage trie of one account. Without nodes only the reported root is known. -/
def storageTrieFrom (fuel : Nat) (before : StorageMultiProof) (after : Option StorageMultiProof) :
    Except ProofFault MptNode :=
  if before.subtree.isEmpty then .ok (nodeFromDigest before.root)
  else do
    let (rootNode, store) ← collectBefore reader keccak before.root before.subtree .Null .empty
    let store ← mergeAfter reader keccak after store
    let trie ← resolveTrie fuel store rootNode
    if trie.hash keccak ≠ before.root then
      .error (.error (.MismatchedStorageRoot (List.replicate 20 0) (trie.hash keccak) before.root))
    else .ok trie

def collectStorages (fuel : Nat) (after : MultiProof) :
    List (B256 × StorageMultiProof) → (B256 → Option MptNode) →
      Except ProofFault (B256 → Option MptNode)
  | [], tries => .ok tries
  | (address, before) :: rest, tries => do
      let trie ← storageTrieFrom reader keccak fuel before (after.storages.lookup address)
      collectStorages fuel after rest (Function.update tries address (some trie))

/-- The state before the block. -/
def transitionMultiproofsToTries (fuel : Nat) (stateRoot : B256) (before after : MultiProof) :
    Except ProofFault EthereumState :=
  if before.accountSubtree.isEmpty then .ok ⟨nodeFromDigest stateRoot, fun _ => none⟩
  else do
    let (rootNode, store) ← collectBefore reader keccak stateRoot before.accountSubtree .Null .empty
    let store ← collectAfter reader keccak after.accountSubtree store
    let storageTries ← collectStorages reader keccak fuel after before.storages fun _ => none
    let stateTrie ← resolveTrie fuel store rootNode
    if stateTrie.hash keccak ≠ stateRoot then
      .error (.error (.MismatchedStateRoot (stateTrie.hash keccak) stateRoot))
    else .ok ⟨stateTrie, storageTries⟩

/-- The check of the client: every storage trie has the root of its account, the empty one if
there is no account. An account that cannot be read makes the client panic. -/
def StorageRootsMatch (state : EthereumState) : Prop :=
  ∀ address trie, state.storageTries address = some trie →
    ∃ account, state.stateTrie.getRlp address.bytes = .ok account ∧
      (account.map TrieAccount.storageRoot).getD EMPTY_ROOT = trie.hash keccak

end

section Reading

variable {keccak : Bytes → B256}

theorem MptNode.asChild_eq_orDigest (child shown : MptNode) :
    child.asChild keccak shown = child.orDigest keccak shown := by
  rw [asChild, orDigest]
  split
  · next hlong => rw [reference_of_long hlong]
  · next hshort => rw [reference_of_short (Nat.lt_of_not_le hshort)]

/-- What is read from the encoding of a node of a trie is the node as it stands in a proof. -/
theorem decoded_toNode (u : NibbleTrie) :
    (toNode u).decoded keccak = (toNode u).shallow keccak := by
  induction u with
  | null => rfl
  | leaf p v => rfl
  | stub d => rfl
  | ext p c ih =>
      rw [toNode, MptNode.decoded, MptNode.shallow, MptNode.asChild_eq_orDigest, ih]
  | branch f ih =>
      rw [toNode_branch, MptNode.decoded, MptNode.shallow]
      refine congrArg _ (funext fun i => ?_)
      by_cases hi : f i = .null
      · rw [hi]
        rfl
      · have hempty : (toNode (f i)).isEmpty = false := by
          rw [isEmpty_toNode]
          exact Bool.eq_false_iff.mpr (mt isNull_iff.mp hi)
        rw [toChild_of_ne hi, MptNode.decodedChild, MptNode.shallowChild, hempty,
          MptNode.asChild_eq_orDigest, ih i]
        rfl

theorem bytesLength_le {bytes : Bytes} (h : bytes.length < 2 ^ 64) :
    Rlp.bytesLength bytes ≤ bytes.length + 9 :=
  Rlp.encodeBytes_length bytes ▸ Rlp.encodeBytes_length_le bytes h

theorem pathsEncoded_toNode {u : NibbleTrie} (h : Fits u) : (toNode u).PathsEncoded := by
  induction u with
  | null => trivial
  | stub d => trivial
  | leaf p v =>
      have hpath := toEncodedPath_length p true
      have hp := h.1
      have hv := h.2
      have hpathLe := @bytesLength_le (toEncodedPath p true) (by omega)
      have hvalueLe := @bytesLength_le v (by omega)
      exact ⟨⟨p, rfl⟩, by omega⟩
  | ext p c ih =>
      have hpath := toEncodedPath_length p false
      have hp := h.1
      have hpathLe := @bytesLength_le (toEncodedPath p false) (by omega)
      exact ⟨⟨p, rfl⟩, by omega, ih h.2⟩
  | branch f ih =>
      have child : ∀ i, MptNode.ChildPathsEncoded (toChild (f i)) := by
        intro i
        by_cases hi : f i = .null
        · rw [hi]
          trivial
        · rw [toChild_of_ne hi]
          exact ih i (h i)
      exact child

variable {reader : RlpReader}

theorem decodeProofNode_encode (hreader : reader.ReadsBack) {u : NibbleTrie} (h : Fits u) :
    decodeProofNode reader ((toNode u).encode keccak) = .ok ((toNode u).shallow keccak) := by
  have hdecode : MptNode.decodeWith reader ((toNode u).encode keccak) =
      .ok ((toNode u).decoded keccak) :=
    MptNode.decodeNode_encode hreader (pathsEncoded_toNode h) le_rfl
  rw [decodeProofNode, hdecode, decoded_toNode]

/-- The node that a canonical encoding is of. -/
def readNode (rlp : Bytes) : MptNode :=
  match decodeProofNode strictReader rlp with
  | .ok node => node
  | .error _ => .Null

theorem collectBefore_eq {root : B256} {rlps : List Bytes}
    (h : ∀ rlp ∈ rlps, decodeProofNode reader rlp = .ok (readNode rlp)) (rootNode : MptNode)
    (store : NodeStore) :
    collectBefore reader keccak root rlps rootNode store =
      .ok ((rlps.map readNode).foldl
          (fun rootNode node => if node.hash keccak = root then node else rootNode) rootNode,
        (rlps.map readNode).foldl
          (fun store node => store.insert (node.reference keccak) node) store) := by
  induction rlps generalizing rootNode store with
  | nil => rfl
  | cons rlp rlps ih =>
      rw [collectBefore, h rlp (.head _)]
      exact ih (fun other ho => h other (.tail _ ho)) _ _

theorem collectAfter_eq {rlps : List Bytes}
    (h : ∀ rlp ∈ rlps, decodeProofNode reader rlp = .ok (readNode rlp)) {store store' : NodeStore}
    (hrun : addAfters keccak store (rlps.map readNode) = .ok store') :
    collectAfter reader keccak rlps store = .ok store' := by
  induction rlps generalizing store with
  | nil =>
      cases hrun
      rfl
  | cons rlp rlps ih =>
      rw [List.map_cons, addAfters] at hrun
      rw [collectAfter, h rlp (.head _)]
      cases hadd : addAfter keccak store (readNode rlp) with
      | error e =>
          rw [hadd] at hrun
          cases hrun
      | ok next =>
          rw [hadd] at hrun
          simp only [bind, Except.bind, hadd]
          exact ih (fun other ho => h other (.tail _ ho)) hrun

end Reading

section Honest

variable {reader : RlpReader} {keccak : Bytes → B256}

/-- Nodes of a trie, among them all nodes on the paths of some keys. -/
structure Contains (keccak : Bytes → B256) (trie : MptNode) (keys : List (List Nibble))
    (rlps : List Bytes) : Prop where
  nodes : ∀ rlp ∈ rlps, ∃ key, ∃ node ∈ trie.pathNodes key, rlp = node.encode keccak
  paths : ∀ key ∈ keys, ∀ node ∈ trie.pathNodes key, node.encode keccak ∈ rlps

variable {t : NibbleTrie} {keys : List (List Nibble)} {rlps : List Bytes}

theorem readNode_encode {u : NibbleTrie} (h : Fits u) :
    readNode ((toNode u).encode keccak) = (toNode u).shallow keccak := by
  rw [readNode, decodeProofNode_encode strictReader_readsBack h]

theorem Contains.decode (hreader : reader.ReadsBack) (h : Contains keccak (toNode t) keys rlps)
    (ht : Fits t) :
    ∀ rlp ∈ rlps, decodeProofNode reader rlp = .ok (readNode rlp) := by
  intro rlp hrlp
  obtain ⟨key, node, hnode, rfl⟩ := h.nodes rlp hrlp
  obtain ⟨q, u, hu, rfl⟩ := nodeAt_of_mem_pathNodes hnode
  rw [readNode_encode (ht.nodeAt hu), decodeProofNode_encode hreader (ht.nodeAt hu)]

theorem Contains.nodesOf (h : Contains keccak (toNode t) keys rlps) (ht : Fits t) :
    NodesOf keccak t (rlps.map readNode) := by
  intro node hnode
  obtain ⟨rlp, hrlp, rfl⟩ := List.mem_map.mp hnode
  obtain ⟨key, shown, hshown, rfl⟩ := h.nodes rlp hrlp
  obtain ⟨q, u, hu, rfl⟩ := nodeAt_of_mem_pathNodes hshown
  exact ⟨q, u, hu, readNode_encode (ht.nodeAt hu)⟩

theorem Contains.onPaths (h : Contains keccak (toNode t) keys rlps) (ht : Fits t) :
    OnPaths keccak t keys (rlps.map readNode) := by
  intro key hkey q u hu hne hq
  have hmem := h.paths key hkey _ (mem_pathNodes_of_nodeAt hu hne hq)
  exact List.mem_map.mpr ⟨_, hmem, readNode_encode (ht.nodeAt hu)⟩

theorem Contains.ne_nil {trie : MptNode} (h : Contains keccak trie keys rlps) (hkeys : keys ≠ []) :
    rlps ≠ [] := by
  obtain ⟨key, hkey⟩ := List.exists_mem_of_ne_nil keys hkeys
  exact List.ne_nil_of_mem (h.paths key hkey _ (self_mem_pathNodes _ key))

/-- The node that is taken for the root, if there is no choice. -/
theorem foldl_root {root : B256} {nodes : List MptNode} {wanted : MptNode}
    (honly : ∀ node ∈ nodes, node.hash keccak = root → node = wanted) {rootNode : MptNode}
    (hthere : rootNode = wanted ∨ ∃ node ∈ nodes, node.hash keccak = root) :
    nodes.foldl (fun rootNode node => if node.hash keccak = root then node else rootNode)
      rootNode = wanted := by
  induction nodes generalizing rootNode with
  | nil => simpa using hthere
  | cons node nodes ih =>
      rw [List.forall_mem_cons] at honly
      by_cases hhash : node.hash keccak = root
      · simp only [List.foldl_cons, hhash, if_true]
        exact ih honly.2 (.inl (honly.1 hhash))
      · simp only [List.foldl_cons, hhash, if_false]
        refine ih honly.2 ?_
        rcases hthere with rfl | ⟨other, hother, hroot⟩
        · exact .inl rfl
        · rcases List.mem_cons.mp hother with rfl | hother
          · exact (hhash hroot).elim
          · exact .inr ⟨other, hother, hroot⟩

/-- What is hashed when two proofs are resolved. -/
def resolvedEncodings (keccak : Bytes → B256) (trie trie' : MptNode) (after : List Bytes) :
    List Bytes :=
  [EMPTY_STRING_CODE] :: proofEncodings keccak trie trie' (after.map readNode)

variable {t' : NibbleTrie} {before after : List Bytes}

/-- Where hashes do not collide, only the root has the hash of the root. -/
theorem eq_root_of_hash (hempty : keccak [EMPTY_STRING_CODE] = EMPTY_ROOT) (ht : Open t)
    (hfits : Fits t)
    (hinj : Set.InjOn keccak {encoded |
      encoded ∈ resolvedEncodings keccak (toNode t) (toNode t') after})
    {q : List Nibble} {u : NibbleTrie} (hu : Trie.NodeAt t q u)
    (hhash : (toNode u).hash keccak = (toNode t).hash keccak) : u = t := by
  have hsub : ∀ e ∈ (toNode u).encodings keccak ++ (toNode t).encodings keccak,
      e ∈ resolvedEncodings keccak (toNode t) (toNode t') after := by
    intro e he
    rcases List.mem_append.mp he with he | he
    · by_cases hnull : u = .null
      · rw [hnull] at he
        obtain rfl : e = [EMPTY_STRING_CODE] := by simpa [toNode, MptNode.encodings] using he
        exact .head _
      · exact .tail _ (List.mem_append_left _ (List.mem_append_left _
          (encodings_nodeAt hu hnull he)))
    · exact .tail _ (List.mem_append_left _ (List.mem_append_left _ he))
  have hinj' : Set.InjOn keccak {encoded |
      encoded ∈ (toNode u).encodings keccak ++ (toNode t).encodings keccak} := hinj.mono hsub
  have hopen : Open u := ht.nodeAt hu
  have hudigest := isDigest_toNode hopen.ne_stub
  have htdigest := isDigest_toNode ht.ne_stub
  have hencode := MptNode.encode_eq_of_hash hempty hudigest htdigest hinj' hhash
  have hreference : (toNode u).reference keccak = (toNode t).reference keccak := by
    rw [MptNode.reference_eq keccak hudigest, hencode, ← MptNode.reference_eq keccak htdigest]
  exact view_eq hopen (view_of_reference ht hfits (injOn_hashed hinj') hreference)

/-- The nodes of an honest proof resolve to a view of the trie, in which the keys can be read and
only what is not in the store is hidden. -/
theorem resolve_contained (hreader : reader.ReadsBack)
    (hempty : keccak [EMPTY_STRING_CODE] = EMPTY_ROOT)
    (ht : Keyed 64 t) (ht' : Open t') (hfits' : Fits t') (hkeys : keys ≠ [])
    (hbefore : Contains keccak (toNode t) keys before)
    {keys' : List (List Nibble)} (hafter : Contains keccak (toNode t') keys' after)
    (hinj : Set.InjOn keccak {encoded |
      encoded ∈ resolvedEncodings keccak (toNode t) (toNode t') after}) :
    ∃ (rootNode : MptNode) (store store' : NodeStore) (w : NibbleTrie),
      collectBefore reader keccak ((toNode t).hash keccak) before .Null .empty =
        .ok (rootNode, store) ∧
      collectAfter reader keccak after store = .ok store' ∧
      (∃ bound, ∀ fuel, bound ≤ fuel → resolveNodes store' fuel rootNode = some (toNode w)) ∧
      Trie.View (Hides keccak) w t ∧
      (∀ key ∈ keys, key.length = 64 → w.lookup key = t.lookup key) ∧
      (∀ q d, w.entry q = some (.inr d) → store' (.Digest d) = none) ∧
      store'.Holds keccak ({node | node ∈ before.map readNode} ∪
        {node | ∃ a ∈ after.map readNode, node = a ∨ node ∈ shortened a}) := by
  have hnodes := hbefore.nodesOf ht.fits
  have hpaths := hbefore.onPaths ht.fits
  have hnodes' := hafter.nodesOf hfits'
  have hnibs : ∀ node ∈ after.map readNode, ∃ nibs, node.nibs = .ok nibs := by
    intro node hmem
    obtain ⟨q, u, _, rfl⟩ := hnodes' node hmem
    exact nibs_shallow u
  obtain ⟨store', hstore, hholds⟩ := transitionStore_holds keccak (before.map readNode) hnibs
  have hknown := known_of_proofs ht.opened ht' hnodes hnodes' hholds
  have hinj' : Set.InjOn keccak {encoded | encoded ∈ MptNode.hashed
      (proofEncodings keccak (toNode t) (toNode t') (after.map readNode))} :=
    injOn_hashed (hinj.mono fun _ he => .tail _ he)
  obtain ⟨w, hresolve, hview, hstubs⟩ := resolved_shallow hknown hinj' t ht.opened ht.fits
    fun e he => List.mem_append_left _ (List.mem_append_left _ he)
  -- The root node is found by its hash.
  have hroot : (before.map readNode).foldl (fun rootNode node =>
      if node.hash keccak = (toNode t).hash keccak then node else rootNode) .Null =
        (toNode t).shallow keccak := by
    refine foldl_root ?_ ?_
    · intro node hnode hhash
      obtain ⟨q, u, hu, rfl⟩ := hnodes node hnode
      rw [hash_eq_of_reference (MptNode.reference_shallow _)] at hhash
      rw [eq_root_of_hash hempty ht.opened ht.fits hinj hu hhash]
    · by_cases hnull : t = .null
      · rw [hnull]
        exact .inl rfl
      · obtain ⟨key, hkey⟩ := List.exists_mem_of_ne_nil keys hkeys
        exact .inr ⟨_, hpaths key hkey [] t (.here t) hnull List.nil_prefix,
          hash_eq_of_reference (MptNode.reference_shallow _)⟩
  refine ⟨_, _, store', w, collectBefore_eq (hbefore.decode hreader ht.fits) _ _,
    collectAfter_eq (hafter.decode hreader hfits') hstore, by rwa [hroot], hview, ?_, hstubs,
    hholds⟩
  intro key hkey hlength
  exact lookup_of_free hview
    (free_of_resolved ht hpaths hholds (fun _ => .inl) hview hstubs hkey hlength)

end Honest

end FluentStf.Mpt
