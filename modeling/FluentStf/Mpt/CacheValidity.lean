import FluentStf.Mpt.CacheErasure
import FluentStf.Mpt.CacheRefusal
import FluentStf.Runs

/-! Caches hold the reference of the node they belong to. A changed node has an empty cache, a
node that moves keeps its cache and its content, and a refused update keeps both. -/
namespace FluentStf.Mpt

namespace CachedNode

section Valid

variable (keccak : Bytes → B256)

/-- A cache is empty or holds the reference of the node. -/
def Agrees (cache : CachedReference) (node : MptNode) : Prop :=
  ∀ r, cache = some r → r = node.reference keccak

mutual

/-- All caches of the tree agree with the nodes they belong to. -/
def Valid : CachedNode → Prop
  | .Null cache => Agrees keccak cache .Null
  | .Branch cache children =>
      Agrees keccak cache (.Branch fun i => eraseChild (children i)) ∧ ∀ i, ValidChild (children i)
  | .Leaf cache path value => Agrees keccak cache (.Leaf path value)
  | .Extension cache path child =>
      Agrees keccak cache (.Extension path child.erase) ∧ child.Valid
  | .Digest cache digest => Agrees keccak cache (.Digest digest)

def ValidChild : Option CachedNode → Prop
  | none => True
  | some child => child.Valid

end

variable {keccak}

@[simp] theorem agrees_none (node : MptNode) : Agrees keccak none node := nofun

theorem validChild_iff {child : Option CachedNode} :
    ValidChild keccak child ↔ ∀ node, child = some node → node.Valid keccak := by
  cases child <;> simp [ValidChild]

variable {children : Nibble → Option CachedNode}

theorem validChild_update {child : Option CachedNode}
    (hchildren : ∀ i, ValidChild keccak (children i)) (hchild : ValidChild keccak child)
    (i j : Nibble) : ValidChild keccak (Function.update children i child j) := by
  rw [Function.update_apply]
  split
  · exact hchild
  · exact hchildren j

variable {node : CachedNode} {selfNibs : List Nibble}

theorem valid_split {old : CachedNode} {keyNibs : List Nibble} {commonLen : Nat} {value : Bytes}
    (hold : old.Valid keccak) (h : (split node selfNibs commonLen old keyNibs value).1 = .ok true) :
    (split node selfNibs commonLen old keyNibs value).2.Valid keccak := by
  unfold split at h ⊢
  split at h
  · next i j _ _ =>
      have hbranch : (Branch none (splitChildren i old j (.Leaf none
          (toEncodedPath (keyNibs.drop (commonLen + 1)) true) value))).Valid keccak := by
        have habsent : ∀ i, ValidChild keccak ((fun _ => none : Nibble → Option CachedNode) i) :=
          fun _ => trivial
        have hnew : ValidChild keccak (some (.Leaf none
            (toEncodedPath (keyNibs.drop (commonLen + 1)) true) value)) := agrees_none _
        have hchildren := fun k => @validChild_update _ _ (some old) habsent hold i k
        exact ⟨agrees_none _, validChild_update hchildren hnew j⟩
      simp only [splitNode]
      split
      · exact ⟨agrees_none _, hbranch⟩
      · exact hbranch
  · cases h

variable {child : CachedNode}

theorem valid_shortenExtension {splitPoint : Nat} (h : child.Valid keccak) :
    (shortenExtension selfNibs splitPoint child).Valid keccak := by
  unfold shortenExtension
  split
  · exact ⟨agrees_none _, h⟩
  · exact h

theorem afterChild_of_ok {cache : CachedReference} {result : Except Fault Bool}
    {node : CachedReference → CachedNode} (h : result = .ok true) :
    (afterChild cache result node).2 = node none := by
  rw [h]
  rfl

/-- Where an insertion changes the tree, it empties the caches. -/
theorem valid_insertInternal {keyNibs : List Nibble} {value : Bytes} (hvalid : node.Valid keccak)
    (h : (node.insertInternal keyNibs value).1 = .ok true) :
    (node.insertInternal keyNibs value).2.Valid keccak := by
  induction node generalizing keyNibs with
  | Null cache => exact agrees_none _
  | Digest cache digest => cases h
  | Leaf cache path oldValue =>
      simp only [insertInternal] at h ⊢
      cases hpath : prefixNibs path with
      | error e => simp [hpath] at h
      | ok selfNibs =>
          simp only [hpath] at h ⊢
          split_ifs at h ⊢
          · cases h
          · exact agrees_none _
          · exact valid_split (agrees_none _) h
  | Extension cache path child ih =>
      simp only [insertInternal] at h ⊢
      cases hpath : prefixNibs path with
      | error e => simp [hpath] at h
      | ok selfNibs =>
          simp only [hpath] at h ⊢
          split_ifs at h ⊢
          · rw [afterChild_fst] at h
            rw [afterChild_of_ok h]
            exact ⟨agrees_none _, ih hvalid.2 h⟩
          · exact valid_split (valid_shortenExtension hvalid.2) h
  | Branch cache children ih =>
      cases keyNibs with
      | nil => cases h
      | cons i tail =>
          simp only [insertInternal, afterChild_fst] at h ⊢
          rw [afterChild_of_ok h]
          refine ⟨agrees_none _, validChild_update hvalid.2 ?_ i⟩
          have hchildren := hvalid.2 i
          cases hchild : children i with
          | none => exact agrees_none _
          | some child =>
              rw [hchild] at h hchildren
              exact ih i child hchild hchildren h

theorem mem_remaining {i : Nibble} (h : (i, child) ∈ remaining children) :
    children i = some child := by
  simpa [remaining] using h

theorem valid_collapse (hchildren : ∀ i, ValidChild keccak (children i))
    (h : (collapse children).1 = .ok true) :
    (collapse children).2.Valid keccak := by
  unfold collapse at h ⊢
  split at h
  · cases h
  · next index orphan hremaining =>
      have hindex : children index = some orphan := mem_remaining (hremaining ▸ .head _)
      have horphan := validChild_iff.mp (hchildren index) orphan hindex
      cases orphan with
      | Null cache => cases h
      | Branch cache grandchildren => exact ⟨agrees_none _, horphan⟩
      | Digest cache digest => exact ⟨agrees_none _, horphan⟩
      | Leaf cache path value =>
          simp only at h ⊢
          split at h
          · cases h
          · exact agrees_none _
      | Extension cache path child =>
          simp only at h ⊢
          split at h
          · cases h
          · exact ⟨agrees_none _, horphan.2⟩
  · exact ⟨agrees_none _, hchildren⟩

theorem valid_mergeExtension {path : Bytes} (hchild : child.Valid keccak)
    (h : (mergeExtension path selfNibs child).1 = .ok true) :
    (mergeExtension path selfNibs child).2.Valid keccak := by
  cases child with
  | Null cache => exact agrees_none _
  | Branch cache children => exact ⟨agrees_none _, hchild⟩
  | Digest cache digest => exact ⟨agrees_none _, hchild⟩
  | Leaf cache childPath value =>
      simp only [mergeExtension] at h ⊢
      split at h
      · cases h
      · exact agrees_none _
  | Extension cache childPath node =>
      simp only [mergeExtension] at h ⊢
      split at h
      · cases h
      · exact ⟨agrees_none _, hchild.2⟩

/-- Where a deletion changes the tree, it empties the caches. -/
theorem valid_deleteInternal {keyNibs : List Nibble} (hvalid : node.Valid keccak)
    (h : (node.deleteInternal keyNibs).1 = .ok true) :
    (node.deleteInternal keyNibs).2.Valid keccak := by
  induction node generalizing keyNibs with
  | Null cache => cases h
  | Digest cache digest => cases h
  | Leaf cache path value =>
      simp only [deleteInternal] at h ⊢
      cases hpath : prefixNibs path with
      | error e => simp [hpath] at h
      | ok selfNibs =>
          simp only [hpath] at h ⊢
          split_ifs at h ⊢
          · cases h
          · exact agrees_none _
  | Extension cache path child ih =>
      simp only [deleteInternal] at h ⊢
      cases hpath : prefixNibs path with
      | error e => simp [hpath] at h
      | ok selfNibs =>
          simp only [hpath] at h ⊢
          cases htail : keyNibs.dropPrefix? selfNibs with
          | none => simp [htail] at h
          | some tail =>
              simp only [htail] at h ⊢
              split at h
              · next hresult => exact valid_mergeExtension (ih hvalid.2 hresult) h
              · next hresult => exact (hresult h).elim
  | Branch cache children ih =>
      cases keyNibs with
      | nil => cases h
      | cons i tail =>
          simp only [deleteInternal] at h ⊢
          split at h
          · next hresult =>
              refine valid_collapse (validChild_update hvalid.2 ?_ i) h
              have hchildren := hvalid.2 i
              cases hchild : children i with
              | none => trivial
              | some child =>
                  rw [hchild] at hresult hchildren
                  simp only [deleteChild] at hresult ⊢
                  split at hresult
                  · next hok =>
                      simp only
                      split
                      · trivial
                      · exact ih i child hchild hchildren hok
                  · next hresult' => exact (hresult' hresult).elim
          · next hresult => exact (hresult h).elim

theorem getD_of_agrees {cache : CachedReference} {node : MptNode} (h : Agrees keccak cache node) :
    cache.getD (node.reference keccak) = node.reference keccak := by
  cases cache with
  | none => rfl
  | some r => exact h r rfl

theorem agrees_some {node : MptNode} {r : MptNodeReference} (h : r = node.reference keccak) :
    Agrees keccak (some r) node :=
  fun _ hsome => (Option.some.inj hsome).symm.trans h

/-- The reference of a node with valid caches is the computed one, and the caches that are
filled on the way are valid. -/
theorem reference_spec (hvalid : node.Valid keccak) :
    (node.reference keccak).1 = node.erase.reference keccak ∧
      (node.reference keccak).2.erase = node.erase ∧
      (node.reference keccak).2.Valid keccak := by
  induction node with
  | Null cache =>
      have hcalc := getD_of_agrees hvalid
      exact ⟨hcalc, rfl, agrees_some hcalc⟩
  | Digest cache digest =>
      have hcalc := getD_of_agrees hvalid
      exact ⟨hcalc, rfl, agrees_some hcalc⟩
  | Leaf cache path value =>
      have hcalc := getD_of_agrees hvalid
      exact ⟨hcalc, rfl, agrees_some hcalc⟩
  | Extension cache path child ih =>
      cases cache with
      | some r => exact ⟨hvalid.1 r rfl, rfl, hvalid⟩
      | none =>
          obtain ⟨hreference, herase, hchild⟩ := ih hvalid.2
          have hcalc : ((Extension none path child).reference keccak).1 =
              (MptNode.Extension path child.erase).reference keccak := by
            simp only [reference, MptNode.reference, hreference]
          refine ⟨hcalc, congrArg (MptNode.Extension path) herase, ?_, hchild⟩
          rw [herase]
          exact agrees_some hcalc
  | Branch cache children ih =>
      cases cache with
      | some r => exact ⟨hvalid.1 r rfl, rfl, hvalid⟩
      | none =>
          have hchildren : ∀ i,
              (referenceChild keccak (children i)).1 =
                  MptNode.childReference keccak (eraseChild (children i)) ∧
                eraseChild (referenceChild keccak (children i)).2 = eraseChild (children i) ∧
                ValidChild keccak (referenceChild keccak (children i)).2 := by
            intro i
            have hvalidChild := hvalid.2 i
            cases hchild : children i with
            | none => exact ⟨rfl, rfl, trivial⟩
            | some child =>
                rw [hchild] at hvalidChild
                obtain ⟨hreference, herase, hfilled⟩ := ih i child hchild hvalidChild
                exact ⟨congrArg some hreference, congrArg some herase, hfilled⟩
          have hcalc :
              referenceOf keccak (encodeBranch fun i => (referenceChild keccak (children i)).1) =
                (MptNode.Branch fun i => eraseChild (children i)).reference keccak := by
            simp only [MptNode.reference, (hchildren _).1]
          have herase : (fun i => eraseChild (referenceChild keccak (children i)).2) =
              fun i => eraseChild (children i) := funext fun i => (hchildren i).2.1
          simp only [reference, erase, Valid, herase]
          exact ⟨hcalc, trivial, agrees_some hcalc, fun i => (hchildren i).2.2⟩

/-- The hash of a node that is not empty, from its reference. -/
def hashOf (keccak : Bytes → B256) : MptNodeReference → B256
  | .Digest digest => digest
  | .Bytes bytes => keccak bytes

theorem hash_of_not_empty (h : node.isEmpty = false) :
    node.hash keccak = (hashOf keccak (node.reference keccak).1, (node.reference keccak).2) := by
  cases node with
  | Null cache => cases h
  | Branch | Leaf | Extension | Digest =>
      unfold hash
      generalize reference keccak _ = outcome
      obtain ⟨reference, filled⟩ := outcome
      cases reference <;> rfl

theorem hash_erase_of_not_empty {node : MptNode} (h : node.isEmpty = false) :
    node.hash keccak = hashOf keccak (node.reference keccak) := by
  cases node with
  | Null => cases h
  | Branch | Leaf | Extension | Digest =>
      unfold MptNode.hash
      cases MptNode.reference keccak _ <;> rfl

theorem hash_spec (hvalid : node.Valid keccak) :
    (node.hash keccak).1 = node.erase.hash keccak ∧
      (node.hash keccak).2.erase = node.erase ∧ (node.hash keccak).2.Valid keccak := by
  obtain ⟨hreference, herase, hfilled⟩ := reference_spec hvalid
  cases hempty : node.isEmpty with
  | true =>
      cases node with
      | Null cache => exact ⟨rfl, rfl, hvalid⟩
      | Branch | Leaf | Extension | Digest => cases hempty
  | false =>
      rw [hash_of_not_empty hempty, hash_erase_of_not_empty ((isEmpty_erase node).trans hempty),
        ← hreference]
      exact ⟨rfl, herase, hfilled⟩

/-- A call that only fills caches inside the tree leaves the caches above it valid. -/
theorem modifyAt_spec {f : CachedNode → CachedNode} {position : List Nibble}
    (hf : ∀ {node : CachedNode}, node.Valid keccak →
      (f node).erase = node.erase ∧ (f node).Valid keccak)
    (hvalid : node.Valid keccak) :
    (node.modifyAt f position).erase = node.erase ∧ (node.modifyAt f position).Valid keccak := by
  induction node generalizing position with
  | Null cache =>
      cases position with
      | nil => exact hf hvalid
      | cons i rest => exact ⟨rfl, hvalid⟩
  | Leaf cache path value =>
      cases position with
      | nil => exact hf hvalid
      | cons i rest => exact ⟨rfl, hvalid⟩
  | Digest cache digest =>
      cases position with
      | nil => exact hf hvalid
      | cons i rest => exact ⟨rfl, hvalid⟩
  | Extension cache path child ih =>
      cases position with
      | nil => exact hf hvalid
      | cons i rest =>
          obtain ⟨herase, hchild⟩ := @ih rest hvalid.2
          simp only [modifyAt, erase, Valid, herase]
          exact ⟨trivial, hvalid.1, hchild⟩
  | Branch cache children ih =>
      cases position with
      | nil => exact hf hvalid
      | cons i rest =>
          have hchild : eraseChild (modifyChildAt f (children i) rest) = eraseChild (children i) ∧
              ValidChild keccak (modifyChildAt f (children i) rest) := by
            have hvalidChild := hvalid.2 i
            cases hchild : children i with
            | none => exact ⟨rfl, trivial⟩
            | some child =>
                rw [hchild] at hvalidChild
                obtain ⟨herase, hfilled⟩ := @ih i child hchild rest hvalidChild
                exact ⟨congrArg some herase, hfilled⟩
          have herase : (fun j => eraseChild
                (Function.update children i (modifyChildAt f (children i) rest) j)) =
              fun j => eraseChild (children j) := by
            refine (Function.comp_update eraseChild children i _).trans ?_
            rw [hchild.1]
            exact Function.update_eq_self i _
          simp only [modifyAt, erase, Valid, herase]
          exact ⟨trivial, hvalid.1, validChild_update hvalid.2 hchild.2 i⟩

end Valid

variable {keccak : Bytes → B256}

theorem erase_unlessPanic {next : CachedNode} {outcome : Except Fault Bool × CachedNode}
    (h : unlessPanic outcome = some next) : next.erase = (eraseOutcome outcome).2 := by
  unfold unlessPanic at h
  split_ifs at h
  exact Option.some.inj h ▸ rfl

/-- An operation changes the node, is refused, or panics. -/
theorem valid_unlessPanic {node next : CachedNode} {outcome : Except Fault Bool × CachedNode}
    (hvalid : node.Valid keccak) (hchanged : outcome.1 = .ok true → outcome.2.Valid keccak)
    (hrefused : Refused outcome.1 → outcome.2 = node) (h : unlessPanic outcome = some next) :
    next.Valid keccak := by
  obtain ⟨result, left⟩ := outcome
  match result with
  | .ok true => exact Option.some.inj h ▸ hchanged rfl
  | .ok false => exact Option.some.inj h ▸ hrefused (.inl rfl) ▸ hvalid
  | .error (.error e) => exact Option.some.inj h ▸ hrefused (.inr ⟨e, rfl⟩) ▸ hvalid
  | .error .panic => simp [unlessPanic] at h

/-- A call keeps the caches valid, and without them it is the same call on the node without
caches. -/
theorem call_spec {node next : CachedNode} {nodeCall : NodeCall} (hvalid : node.Valid keccak)
    (h : node.call keccak nodeCall = some next) :
    next.erase = node.erase.afterCall nodeCall ∧ next.Valid keccak := by
  cases nodeCall with
  | insert key value =>
      refine ⟨(erase_unlessPanic h).trans (congrArg Prod.snd (eraseOutcome_insert ..)), ?_⟩
      simp only [call, insert] at h
      split at h
      · simp [unlessPanic] at h
      · exact valid_unlessPanic hvalid (valid_insertInternal hvalid) insertInternal_of_refused h
  | delete key =>
      refine ⟨(erase_unlessPanic h).trans (congrArg Prod.snd (eraseOutcome_delete ..)), ?_⟩
      exact valid_unlessPanic hvalid (valid_deleteInternal hvalid) deleteInternal_of_refused h
  | clear => exact Option.some.inj h ▸ ⟨rfl, agrees_none .Null⟩
  | clone =>
      rw [call, clone_eq] at h
      exact Option.some.inj h ▸ ⟨rfl, hvalid⟩
  | hash position =>
      exact Option.some.inj h ▸ modifyAt_spec (fun hvalid => (hash_spec hvalid).2) hvalid
  | reference position =>
      exact Option.some.inj h ▸ modifyAt_spec (fun hvalid => (reference_spec hvalid).2) hvalid

theorem run_spec {start node : CachedNode} {calls : List NodeCall} (hvalid : start.Valid keccak)
    (hrun : Run (fun node nodeCall next => call keccak node nodeCall = some next) start calls
      node) :
    node.erase = calls.foldl MptNode.afterCall start.erase ∧ node.Valid keccak := by
  induction hrun with
  | nil => exact ⟨rfl, hvalid⟩
  | cons head _ ih =>
      obtain ⟨herase, hnext⟩ := call_spec hvalid head
      rw [List.foldl_cons, ← herase]
      exact ih hnext

end CachedNode

theorem MptNode.erase_uncached (node : MptNode) : node.uncached.erase = node := by
  induction node with
  | Null => rfl
  | Leaf path value => rfl
  | Digest digest => rfl
  | Extension path child ih => rw [uncached, CachedNode.erase, ih]
  | Branch children ih =>
      rw [uncached, CachedNode.erase]
      refine congrArg _ (funext fun i => ?_)
      cases hchild : children i with
      | none => rfl
      | some child => exact congrArg some (ih i child hchild)

theorem MptNode.valid_uncached {keccak : Bytes → B256} (node : MptNode) :
    node.uncached.Valid keccak := by
  induction node with
  | Null => exact CachedNode.agrees_none _
  | Leaf path value => exact CachedNode.agrees_none _
  | Digest digest => exact CachedNode.agrees_none _
  | Extension path child ih => exact ⟨CachedNode.agrees_none _, ih⟩
  | Branch children ih =>
      refine ⟨CachedNode.agrees_none _, fun i => ?_⟩
      simp only
      cases hchild : children i with
      | none => trivial
      | some child => exact ih i child hchild

/-- Caches are never stale. After any calls on a node without caches, every cache of the tree
is empty or holds the computed reference, and the hash is the one computed from scratch. Without
its caches the node is what the same calls make of the node without caches. -/
theorem caches_never_stale {keccak : Bytes → B256} (start : MptNode) {calls : List NodeCall}
    {node : CachedNode}
    (hrun : Run (fun node nodeCall next => CachedNode.call keccak node nodeCall = some next)
      start.uncached calls node) :
    node.Valid keccak ∧ node.erase = calls.foldl MptNode.afterCall start ∧
      (node.reference keccak).1 = node.erase.reference keccak ∧
      (node.hash keccak).1 = node.erase.hash keccak := by
  obtain ⟨herase, hvalid⟩ := CachedNode.run_spec start.valid_uncached hrun
  rw [start.erase_uncached] at herase
  exact ⟨hvalid, herase, (CachedNode.reference_spec hvalid).1, (CachedNode.hash_spec hvalid).1⟩

/-- The root is hashed, split by a second key, hashed again and merged back. A key that ends
at the branch is refused in between. -/
def cachedCalls : List NodeCall :=
  [.insert [0x12] [1], .hash [], .insert [0x34] [2], .hash [3], .insert [] [3], .reference [],
    .delete [0x12]]

/-- Keccak-256 of the leaves along these calls. -/
def cachedDigests : List (Bytes × B256) :=
  [([0xc4, 0x82, 0x20, 0x12, 1],
      .ofNat 0x2de332538c255946ed2004d4ffd707d8952bfe28bd6a3e5dc5680b63a498f62c),
    ([0xc2, 0x34, 2], .ofNat 0x03663fe299f49ea1d93564d7526dd73d68ba04d32246191a035db4a5244628a2),
    ([0xc4, 0x82, 0x20, 0x34, 2],
      .ofNat 0xb91ad3deeb38301b5a2804ece875ec7c61ce9acd16f8ed2d0c5e8537f71e6281)]

theorem caches_never_stale_sample :
    ∃ node, Run (fun node nodeCall next =>
          CachedNode.call (tableHash cachedDigests) node nodeCall = some next)
        MptNode.Null.uncached cachedCalls node ∧
      (node.hash (tableHash cachedDigests)).1 =
        (MptNode.Leaf [0x20, 0x34] [2]).hash (tableHash cachedDigests) := by
  have hsome : (cachedCalls.foldlM (CachedNode.call (tableHash cachedDigests))
      MptNode.Null.uncached).isSome = true := by decide +kernel
  obtain ⟨node, hnode⟩ := Option.isSome_iff_exists.mp hsome
  obtain ⟨-, herase, -, hhash⟩ := caches_never_stale .Null (.of_foldlM hnode)
  refine ⟨node, .of_foldlM hnode, hhash.trans ?_⟩
  rw [herase]
  decide +kernel

end FluentStf.Mpt
