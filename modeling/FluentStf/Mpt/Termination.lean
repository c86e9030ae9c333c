import FluentStf.Mpt.Resolution
import Mathlib.Order.WellFoundedSet

/-! Resolving a trie follows digests through the store, and the nodes of the store come from
outside. It ends where the hash function leaves no way round: no node can contain its own hash.
An entry that is itself a bare digest is stored under that digest and stands in nobody's way. -/
namespace FluentStf.Mpt

open Relation MptNode

/-- The nodes of a witness by their references and by the hashes of their bytes, and the node
whose bytes have the hash of the state root. -/
structure WitnessIndex where
  nodeMap : NodeStore
  nodeByHash : B256 → Option MptNode
  rootNode : Option MptNode

def WitnessIndex.empty : WitnessIndex := ⟨.empty, fun _ => none, none⟩

section Model

variable (keccak : Bytes → B256)

def WitnessIndex.add (preStateRoot : B256) (index : WitnessIndex) (encoded : Bytes)
    (node : MptNode) : WitnessIndex where
  nodeMap := index.nodeMap.insert (node.reference keccak) node
  nodeByHash := Function.update index.nodeByHash (keccak encoded) (some node)
  rootNode := if keccak encoded = preStateRoot then some node else index.rootNode

/-- The first step of building tries from a witness. -/
def indexWitness (reader : RlpReader) (preStateRoot : B256) :
    WitnessIndex → List Bytes → Except NodeDecodeError WitnessIndex
  | index, [] => .ok index
  | index, encoded :: rest => match decodeWith reader encoded with
    | .error e => .error e
    | .ok node => indexWitness reader preStateRoot (index.add keccak preStateRoot encoded node) rest

/-- The node that the state trie is resolved from. -/
def WitnessIndex.root (preStateRoot : B256) (index : WitnessIndex) : MptNode :=
  index.rootNode.getD (.Digest preStateRoot)

/-- One encoding contains the hash of another; both are among those that get hashed. -/
def ContainsHash (encodings : List Bytes) (encoded other : Bytes) : Prop :=
  encoded ∈ hashed encodings ∧ other ∈ hashed encodings ∧
    (keccak other).bytes <:+: encoded

/-- No chain of encoded nodes contains its own hash. -/
def NoHashCycle (encodings : List Bytes) : Prop :=
  ∀ encoded, ¬TransGen (ContainsHash keccak encodings) encoded encoded

end Model

/-- The node that is stored under the first digest shows the second one. -/
def Leads (store : NodeStore) (digest next : B256) : Prop :=
  ∃ node, store (.Digest digest) = some node ∧ node.Shows next

/-- The digests that resolving a node comes to. -/
def Meets (store : NodeStore) (root : MptNode) (digest : B256) : Prop :=
  ∃ shown, root.Shows shown ∧ ReflTransGen (Leads store) shown digest

/-- The recursion comes to an end. -/
def Terminates (store : NodeStore) (root : MptNode) : Prop :=
  ∃ fuel trie, resolveNodes store fuel root = some trie

/-- A relation without cycles into finitely many elements cannot be followed for ever. -/
theorem acc_of_acyclic {α : Type} {r : α → α → Prop} {elements : List α}
    (hmem : ∀ a b, r a b → b ∈ elements) (hacyclic : ∀ a, ¬TransGen r a a) (a : α) :
    Acc (Function.swap (TransGen r)) a := by
  have hlast : ∀ a b, TransGen r a b → b ∈ elements := by
    intro a b h
    obtain ⟨c, -, hstep⟩ := TransGen.tail'_iff.mp h
    exact hmem c b hstep
  have horder : IsStrictOrder α (Function.swap (TransGen r)) :=
    { irrefl := hacyclic
      trans := fun a b c hab hbc => TransGen.trans hbc hab }
  have hfinite : {b | b ∈ elements}.WellFoundedOn (Function.swap (TransGen r)) :=
    (List.finite_toSet elements).wellFoundedOn
  have hacc : ∀ b ∈ elements, Acc (Function.swap (TransGen r)) b := by
    intro b hb
    refine hfinite.induction hb fun c _ ih => ?_
    exact Acc.intro c fun d hd => ih d (hlast c d hd) hd
  exact Acc.intro a fun b hb => hacc b (hlast a b hb)

section Follow

variable {store : NodeStore}

/-- A node is resolved as soon as its digests are. -/
theorem exists_resolves {node : MptNode}
    (h : ∀ digest, node.Shows digest → ∃ trie, Resolves store (.Digest digest) trie) :
    ∃ trie, Resolves store node trie := by
  induction node with
  | Null => exact ⟨_, .null⟩
  | Leaf path value => exact ⟨_, .leaf path value⟩
  | Digest digest => exact h digest (.digest digest)
  | Extension path child ih =>
      obtain ⟨trie, htrie⟩ := ih fun digest hshows => h digest (.extension hshows)
      exact ⟨_, .extension path htrie⟩
  | Branch children ih =>
      have hchild : ∀ i, ∃ shown : Option MptNode, shown.isSome = (children i).isSome ∧
          ∀ child trie, children i = some child → shown = some trie →
            Resolves store child trie := by
        intro i
        cases hi : children i with
        | none => exact ⟨none, rfl, fun child trie hchild => nomatch hchild⟩
        | some child =>
            obtain ⟨trie, htrie⟩ := ih i child hi fun digest hshows => h digest (.branch hi hshows)
            refine ⟨some trie, rfl, fun other shown hother hshown => ?_⟩
            cases hother
            cases hshown
            exact htrie
      choose shown hpresent hshown using hchild
      exact ⟨_, .branch hpresent hshown⟩

variable {digest : B256}

theorem exists_resolves_of_acc (h : Acc (Function.swap (Leads store)) digest) :
    ∃ trie, Resolves store (.Digest digest) trie := by
  induction h with
  | intro digest _ ih =>
      cases hnode : store (.Digest digest) with
      | none => exact ⟨_, .kept hnode⟩
      | some node =>
          obtain ⟨trie, htrie⟩ := exists_resolves fun next hshows => ih next ⟨node, hnode, hshows⟩
          exact ⟨trie, .found hnode htrie⟩

theorem Resolves.acc {node trie : MptNode} (h : Resolves store node trie)
    (hshows : node.Shows digest) : Acc (Function.swap (Leads store)) digest := by
  induction h generalizing digest with
  | null => cases hshows
  | leaf path value => cases hshows
  | extension path _ ih =>
      cases hshows with
      | extension hshows => exact ih hshows
  | branch hpresent _ ih =>
      cases hshows with
      | branch hchild hshows =>
          obtain ⟨hnone, -⟩ | ⟨child, trie, hsome, htrie⟩ := present_cases (hpresent _)
          · rw [hnone] at hchild
            cases hchild
          · exact ih _ _ trie hchild htrie hshows
  | found hnode _ ih =>
      cases hshows
      refine Acc.intro _ fun next hnext => ?_
      obtain ⟨node, hfound, hshows⟩ := hnext
      rw [hnode] at hfound
      cases hfound
      exact ih hshows
  | kept hnode =>
      cases hshows
      refine Acc.intro _ fun next hnext => ?_
      obtain ⟨node, hfound, -⟩ := hnext
      rw [hnode] at hfound
      cases hfound

/-- The recursion comes to an end exactly where no way through the store is infinite. -/
theorem terminates_iff_acc {root : MptNode} :
    Terminates store root ↔
      ∀ digest, root.Shows digest → Acc (Function.swap (Leads store)) digest := by
  constructor
  · rintro ⟨fuel, trie, hrun⟩ digest hshows
    exact (resolves_of_resolveNodes hrun).acc hshows
  · intro h
    obtain ⟨trie, htrie⟩ :=
      exists_resolves fun digest hshows => exists_resolves_of_acc (h digest hshows)
    obtain ⟨fuel, hrun⟩ := htrie.exists_fuel
    exact ⟨fuel, trie, hrun⟩

theorem acc_of_leads {next : B256} (h : Acc (Function.swap (Leads store)) digest)
    (hleads : ReflTransGen (Leads store) digest next) : Acc (Function.swap (Leads store)) next := by
  induction hleads with
  | refl => exact h
  | tail _ hstep ih => exact ih.inv hstep

/-- A digest that is stored under itself is looked up again and again. -/
theorem not_acc_of_self (h : store (.Digest digest) = some (.Digest digest)) :
    ¬Acc (Function.swap (Leads store)) digest := by
  intro hacc
  induction hacc with
  | intro digest _ ih => exact ih digest ⟨_, h, .digest digest⟩ h

end Follow

section Hashes

variable {keccak : Bytes → B256} {encodings : List Bytes}

theorem infix_encode_extension {path : Bytes} {child : MptNode} {digest : B256}
    (h : child.reference keccak = .Digest digest) :
    digest.bytes <:+: (MptNode.Extension path child).encode keccak := by
  rw [encode, encodeExtension, h, MptNodeReference.encode]
  exact ((List.suffix_cons _ _).trans (List.suffix_append _ _)).isInfix

theorem infix_encode_branch {children : Nibble → Option MptNode} {i : Nibble} {child : MptNode}
    (hchild : children i = some child) {digest : B256}
    (h : child.reference keccak = .Digest digest) :
    digest.bytes <:+: (MptNode.Branch children).encode keccak := by
  have hmem : (EMPTY_STRING_CODE + 32) :: digest.bytes ∈
      List.ofFn fun i => encodeChild ((children i).map (reference keccak)) := by
    refine List.mem_ofFn.mpr ⟨i, ?_⟩
    rw [hchild, Option.map_some, h]
    rfl
  rw [encode, encodeBranch]
  exact ((List.suffix_cons _ _).isInfix.trans (List.infix_of_mem_flatten hmem)).trans
    (List.infix_append _ _ _)

variable {node : MptNode}

/-- A node that contains the hash of another encoding is itself hashed. -/
theorem containsHash_of_within (hnode : node.isDigest = false)
    (hsub : node.encodings keccak ⊆ encodings) {other : Bytes}
    (hother : other ∈ hashed encodings)
    (hwithin : (keccak other).bytes <:+: node.encode keccak) :
    ContainsHash keccak encodings (node.encode keccak) other := by
  have hlength := hwithin.length_le
  rw [(keccak other).length_eq] at hlength
  exact ⟨mem_hashed.mpr ⟨hsub (encode_mem_encodings keccak hnode), hlength⟩,
    hother, hwithin⟩

theorem reference_of_hashed (hnode : node.isDigest = false)
    (h : node.encode keccak ∈ hashed encodings) :
    node.reference keccak = .Digest (keccak (node.encode keccak)) := by
  have hlength := (mem_hashed.mp h).2
  rw [reference_eq keccak hnode, referenceOf, if_neg (by omega)]

/-- The way from a node to a digest below one of its children. -/
theorem chain_of_child {child : MptNode} (hnode : node.isDigest = false)
    (hsub : node.encodings keccak ⊆ encodings)
    (hwithin : ∀ digest, child.reference keccak = .Digest digest →
      digest.bytes <:+: node.encode keccak)
    {other : Bytes} (hother : other ∈ hashed encodings)
    (hshows : child.Shows (keccak other))
    (hchild : child.isDigest = false →
      TransGen (ContainsHash keccak encodings) (child.encode keccak) other) :
    TransGen (ContainsHash keccak encodings) (node.encode keccak) other := by
  cases hdigest : child.isDigest with
  | true =>
      cases hshows with
      | digest =>
          exact TransGen.single (containsHash_of_within hnode hsub hother (hwithin _ rfl))
      | extension | branch => cases hdigest
  | false =>
      -- The child contains a hash, so that it stands in the node by its own hash.
      have hchain := hchild hdigest
      obtain ⟨next, hstep, -⟩ := TransGen.head'_iff.mp hchain
      have hreference := reference_of_hashed hdigest hstep.1
      exact TransGen.head (containsHash_of_within hnode hsub hstep.1 (hwithin _ hreference)) hchain

theorem chain_of_shows {other : Bytes} (hother : other ∈ hashed encodings)
    (hshows : node.Shows (keccak other)) (hnode : node.isDigest = false)
    (hsub : node.encodings keccak ⊆ encodings) :
    TransGen (ContainsHash keccak encodings) (node.encode keccak) other := by
  generalize hdigest : keccak other = digest at hshows
  induction hshows with
  | digest => cases hnode
  | extension hshows ih =>
      subst hdigest
      refine chain_of_child hnode hsub (fun _ => infix_encode_extension) hother hshows
        fun hchild => ?_
      exact ih hchild (List.Subset.trans (encodings_extension keccak _ _) hsub) rfl
  | branch hi hshows ih =>
      subst hdigest
      refine chain_of_child hnode hsub (fun _ => infix_encode_branch hi) hother hshows
        fun hchild => ?_
      exact ih hchild (List.Subset.trans (encodings_branch keccak hi) hsub) rfl

variable {store : NodeStore}

/-- Where no digest is stored under itself, the way through the store is a chain of hashes. -/
theorem acc_of_noHashCycle (hcycle : NoHashCycle keccak encodings)
    (hstore : ∀ reference node, store reference = some node →
      node.encodings keccak ⊆ encodings ∧ node.reference keccak = reference)
    {digest : B256} (hself : ∀ next, ReflTransGen (Leads store) digest next →
      store (.Digest next) ≠ some (.Digest next)) :
    Acc (Function.swap (Leads store)) digest := by
  have hunstored : ∀ digest, store (.Digest digest) = none →
      Acc (Function.swap (Leads store)) digest := by
    intro digest hnone
    refine Acc.intro _ fun next hnext => ?_
    obtain ⟨node, hnode, -⟩ := hnext
    rw [hnone] at hnode
    cases hnode
  -- A stored node is hashed, because its reference is a digest but it is none itself.
  have hhashed : ∀ digest node, store (.Digest digest) = some node → node ≠ .Digest digest →
      node.isDigest = false ∧ node.encode keccak ∈ hashed encodings ∧
        keccak (node.encode keccak) = digest := by
    intro digest node hnode hne
    obtain ⟨hsub, hreference⟩ := hstore _ _ hnode
    have hdigest : node.isDigest = false := by
      cases node with
      | Digest other =>
          cases hreference
          exact (hne rfl).elim
      | Null | Branch | Leaf | Extension => rfl
    rw [reference_eq keccak hdigest, referenceOf] at hreference
    split_ifs at hreference with hshort
    refine ⟨hdigest, mem_hashed.mpr ⟨?_, by omega⟩, MptNodeReference.Digest.inj hreference⟩
    exact hsub (encode_mem_encodings keccak hdigest)
  cases hfirst : store (.Digest digest) with
  | none => exact hunstored digest hfirst
  | some node =>
      have hacc : Acc (Function.swap (TransGen (ContainsHash keccak encodings)))
          (node.encode keccak) := acc_of_acyclic (fun _ _ h => h.2.1) hcycle _
      generalize hencoded : node.encode keccak = encoded at hacc
      induction hacc generalizing digest node with
      | intro encoded _ ih =>
          subst hencoded
          obtain ⟨hdigest, -, -⟩ := hhashed digest node hfirst fun he =>
            hself digest .refl (he ▸ hfirst)
          refine Acc.intro _ fun next hleads => ?_
          obtain ⟨found, hfound, hshows⟩ := id hleads
          rw [hfirst] at hfound
          cases hfound
          have hselfNext : ∀ later, ReflTransGen (Leads store) next later →
              store (.Digest later) ≠ some (.Digest later) :=
            fun later hlater => hself later (ReflTransGen.head hleads hlater)
          cases hnext : store (.Digest next) with
          | none => exact hunstored next hnext
          | some nextNode =>
              obtain ⟨-, hmem, hhash⟩ := hhashed next nextNode hnext fun he =>
                hselfNext next .refl (he ▸ hnext)
              rw [← hhash] at hshows
              have hchain := chain_of_shows hmem hshows hdigest (hstore _ _ hfirst).1
              exact ih _ hchain hselfNext nextNode hnext rfl

end Hashes

section Index

variable {keccak : Bytes → B256} {reader : RlpReader} {preStateRoot : B256}

/-- The entries are stored one after the other. -/
theorem indexWitness_eq {encoded : List Bytes} {nodes : List MptNode} (index : WitnessIndex)
    (h : encoded.mapM (decodeWith reader) = .ok nodes) :
    ∃ result, indexWitness keccak reader preStateRoot index encoded = .ok result ∧
      result.nodeMap = nodes.foldl (fun store node => store.insert (node.reference keccak) node)
        index.nodeMap := by
  have hnodes := mapM_eq_ok.mp h
  clear h
  induction hnodes generalizing index with
  | nil => exact ⟨index, rfl, rfl⟩
  | cons hnode _ ih =>
      obtain ⟨result, hrun, hmap⟩ := ih (index.add keccak preStateRoot _ _)
      refine ⟨result, ?_, hmap⟩
      rw [indexWitness, hnode]
      exact hrun

end Index

/-- Resolving against the nodes of a witness comes to an end unless it comes to a digest under
which that digest itself is stored. -/
theorem resolve_terminates_iff (keccak : Bytes → B256) (reader : RlpReader) (preStateRoot : B256)
    {encoded : List Bytes} {nodes : List MptNode}
    (hdecode : encoded.mapM (decodeWith reader) = .ok nodes)
    (hcycle : NoHashCycle keccak (nodes.flatMap (encodings keccak))) :
    ∃ index, indexWitness keccak reader preStateRoot .empty encoded = .ok index ∧
      ∀ root, (root ∈ nodes ∨ ∃ digest, root = .Digest digest) →
        (Terminates index.nodeMap root ↔ ∀ digest, Meets index.nodeMap root digest →
          index.nodeMap (.Digest digest) ≠ some (.Digest digest)) := by
  obtain ⟨index, hindex, hmap⟩ := indexWitness_eq .empty hdecode
  refine ⟨index, hindex, fun root _ => ?_⟩
  have hholds : index.nodeMap.Holds keccak {node | node ∈ nodes} :=
    hmap ▸ beforeStore_holds keccak nodes
  rw [terminates_iff_acc]
  constructor
  · rintro hacc digest ⟨shown, hshows, hleads⟩ hself
    exact not_acc_of_self hself (acc_of_leads (hacc shown hshows) hleads)
  · intro hself shown hshows
    refine acc_of_noHashCycle hcycle (fun reference node hnode => ?_)
      fun next hleads => hself next ⟨shown, hshows, hleads⟩
    obtain ⟨hmem, hreference⟩ := hholds.sound reference node hnode
    refine ⟨fun encoding hencoding => ?_, hreference⟩
    exact List.mem_flatMap.mpr ⟨node, hmem, hencoding⟩

section Sample

theorem encodings_sample :
    [hashedLeaf, hashedExtension].flatMap (encodings (tableHash extensionDigests)) =
      extensionDigests.map Prod.fst := by
  decide

/-- Only the extension contains a hash, that of the leaf. -/
theorem containsHash_sample {encoded other : Bytes}
    (h : ContainsHash (tableHash extensionDigests) (extensionDigests.map Prod.fst) encoded other) :
    encoded = hashedExtension.encode (tableHash extensionDigests) ∧
      other = hashedLeaf.encode (tableHash extensionDigests) := by
  have hpairs : ∀ a ∈ hashed (extensionDigests.map Prod.fst),
      ∀ b ∈ hashed (extensionDigests.map Prod.fst),
      (tableHash extensionDigests b).bytes <:+: a →
      a = hashedExtension.encode (tableHash extensionDigests) ∧
        b = hashedLeaf.encode (tableHash extensionDigests) := by
    decide
  exact hpairs encoded h.1 other h.2.1 h.2.2

theorem noHashCycle_sample :
    NoHashCycle (tableHash extensionDigests) (extensionDigests.map Prod.fst) := by
  intro encoded h
  obtain ⟨_, hfirst, -⟩ := TransGen.head'_iff.mp h
  obtain ⟨_, -, hlast⟩ := TransGen.tail'_iff.mp h
  have hne : hashedExtension.encode (tableHash extensionDigests) ≠
      hashedLeaf.encode (tableHash extensionDigests) := by
    decide
  exact hne ((containsHash_sample hfirst).1.symm.trans (containsHash_sample hlast).2)

theorem resolve_terminates_sample :
    ∃ index, indexWitness (tableHash extensionDigests) strictReader extensionDigest .empty
        (extensionDigests.map Prod.fst) = .ok index ∧
      Terminates index.nodeMap hashedExtension := by
  have hdecode : (extensionDigests.map Prod.fst).mapM (decodeWith strictReader) =
      .ok [hashedLeaf, hashedExtension] := by
    rfl
  obtain ⟨index, hindex, hiff⟩ := resolve_terminates_iff (tableHash extensionDigests) strictReader
    extensionDigest hdecode (encodings_sample ▸ noHashCycle_sample)
  refine ⟨index, hindex, (hiff hashedExtension (.inl (by simp))).mpr ?_⟩
  intro digest _ hself
  obtain ⟨other, hother, hmap⟩ := @indexWitness_eq (tableHash extensionDigests) strictReader
    extensionDigest _ _ .empty hdecode
  rw [hindex] at hother
  cases hother
  have hholds : index.nodeMap.Holds (tableHash extensionDigests)
      {node | node ∈ [hashedLeaf, hashedExtension]} :=
    hmap ▸ beforeStore_holds _ _
  obtain ⟨hmem, -⟩ := hholds.sound _ _ hself
  simp [hashedLeaf, hashedExtension] at hmem

/-- The encoding of a bare digest. -/
def bareDigest : Bytes := 0xa0 :: B256.zero.bytes

def bareDigestHash : B256 :=
  ⟨[0x38, 0x76, 0x99, 0x66, 0x27, 0xd5, 0xab, 0x60, 0x96, 0x14, 0x20, 0xd2, 0x2e, 0xa8, 0x0d, 0xb3,
    0xfd, 0x4d, 0xe1, 0x6e, 0x61, 0x13, 0x28, 0xe2, 0x18, 0x82, 0xeb, 0x06, 0x51, 0x5e, 0xf6, 0x8d],
    rfl⟩

/-- With a bare digest in the witness, a state trie with that root is looked up for ever. -/
theorem bare_digest_diverges :
    [bareDigest].mapM (decodeWith strictReader) = .ok [.Digest B256.zero] ∧
      NoHashCycle (tableHash [(bareDigest, bareDigestHash)])
        ([MptNode.Digest B256.zero].flatMap
          (encodings (tableHash [(bareDigest, bareDigestHash)]))) ∧
      ∃ index, indexWitness (tableHash [(bareDigest, bareDigestHash)]) strictReader B256.zero .empty
          [bareDigest] = .ok index ∧
        index.root B256.zero = .Digest B256.zero ∧
        ¬Terminates index.nodeMap (index.root B256.zero) := by
  have hdecode : [bareDigest].mapM (decodeWith strictReader) =
      .ok [.Digest B256.zero] := by
    rfl
  refine ⟨hdecode, ?_, WitnessIndex.empty.add _ B256.zero bareDigest (.Digest B256.zero), rfl, rfl,
    ?_⟩
  · intro encoded h
    obtain ⟨_, hstep, -⟩ := TransGen.head'_iff.mp h
    cases hstep.1
  · intro h
    refine not_acc_of_self ?_ (terminates_iff_acc.mp h B256.zero (.digest _))
    simp only [WitnessIndex.add, NodeStore.insert, reference, Function.update_self]

end Sample

end FluentStf.Mpt
