import FluentStf.Merkle
import FluentStf.Nitro.Enclave

/-! The Merkle root of the bridge messages of a block. It is computed in place, level
by level, and agrees with the root that the enclave computes for a batch. -/
namespace FluentStf.Executor

open Nitro Merkle

section

variable (keccak : Bytes → B256)

/-- One round of the inner loop. Indices out of range panic. -/
def hashPair (leaves : List B256) (i : Nat) : Option (List B256) := do
  let left ← leaves[i * 2]?
  let right ← leaves[i * 2 + 1]?
  some (leaves.set i (keccak (left.bytes ++ right.bytes)))

/-- An odd last leaf is pushed once more. -/
def pushLast (leaves : List B256) : Option (List B256) :=
  if leaves.length % 2 = 0 then some leaves
  else leaves.getLast?.map fun last => leaves ++ [last]

/-- One round of the outer loop: the hashes are written over the front, and the
rest is cut off. -/
def hashLevel (leaves : List B256) : Option (List B256) := do
  let leaves ← pushLast leaves
  let leaves ← (List.range (leaves.length / 2)).foldlM (hashPair keccak) leaves
  some (leaves.take (leaves.length / 2))

variable {keccak}

/-- The hashes that a level is overwritten with. -/
def levelHashes (keccak : Bytes → B256) (leaves : List B256) : List B256 :=
  (pairs leaves).map fun pair => keccakPair keccak pair.1 pair.2

variable {leaves : List B256}

theorem hashPair_overwritten {i : Nat} (hi : 2 * i + 1 < leaves.length) :
    hashPair keccak ((levelHashes keccak leaves).take i ++ leaves.drop i) i =
      some ((levelHashes keccak leaves).take (i + 1) ++ leaves.drop (i + 1)) := by
  have htake : ((levelHashes keccak leaves).take i).length = i := by
    simp only [levelHashes, List.length_take, List.length_map, pairs_length]
    omega
  have hread : ∀ j, i ≤ j →
      ((levelHashes keccak leaves).take i ++ leaves.drop i)[j]? = leaves[j]? := by
    intro j hj
    rw [List.getElem?_append_right (by omega), List.getElem?_drop, htake, Nat.add_sub_cancel' hj]
  have hhash : (levelHashes keccak leaves)[i]? =
      some (keccakPair keccak leaves[2 * i] leaves[2 * i + 1]) := by
    simp [levelHashes, getElem?_pairs, hi, show 2 * i < leaves.length by omega]
  have hwrite : ∀ hash, ((levelHashes keccak leaves).take i ++ leaves.drop i).set i hash =
      (levelHashes keccak leaves).take i ++ hash :: leaves.drop (i + 1) := by
    intro hash
    rw [List.set_append_right _ _ (by omega), htake, Nat.sub_self,
      List.drop_eq_getElem_cons (show i < leaves.length by omega), List.set_cons_zero]
  rw [hashPair, hread _ (by omega), hread _ (by omega), Nat.mul_comm i 2,
    List.getElem?_eq_getElem hi, List.getElem?_eq_getElem (show 2 * i < leaves.length by omega),
    List.take_add_one, hhash]
  simp only [Option.bind_eq_bind, Option.bind_some, hwrite]
  simp [keccakPair]

/-- The front is overwritten, and what is still to be read is as it was. -/
theorem foldlM_hashPair {count : Nat} (hcount : 2 * count ≤ leaves.length) :
    (List.range count).foldlM (hashPair keccak) leaves =
      some ((levelHashes keccak leaves).take count ++ leaves.drop count) := by
  induction count with
  | zero => simp
  | succ count ih =>
      rw [List.range_succ, List.foldlM_append, ih (by omega)]
      simp [hashPair_overwritten (show 2 * count + 1 < leaves.length by omega)]

theorem pushLast_eq (hne : leaves ≠ []) :
    pushLast leaves = some (padded leaves) := by
  simp only [pushLast, padded, List.getLast?_eq_getLast_of_ne_nil hne]
  split <;> rfl

theorem hashLevel_eq (hne : leaves ≠ []) :
    hashLevel keccak leaves = some (parents (keccakPair keccak) leaves) := by
  have hhashes : (levelHashes keccak (padded leaves)).length =
      (padded leaves).length / 2 := by
    rw [levelHashes, List.length_map, pairs_length]
  rw [hashLevel, pushLast_eq hne]
  simp only [Option.bind_eq_bind, Option.bind_some]
  rw [foldlM_hashPair (by omega)]
  simp only [Option.bind_some, List.length_append, List.length_take, List.length_drop, hhashes,
    Option.some.injEq]
  rw [List.take_append_of_le_length (by simp only [List.length_take, hhashes]; omega),
    List.take_take, List.take_of_length_le (by omega)]
  rfl

theorem hashLevel_length {next : List B256} (hlength : 1 < leaves.length)
    (h : hashLevel keccak leaves = some next) : next.length < leaves.length := by
  rw [hashLevel_eq (List.ne_nil_of_length_pos (by omega)), Option.some.injEq] at h
  rw [← h, parents_length]
  omega

/-- The outer loop. -/
def hashLevels (keccak : Bytes → B256) (leaves : List B256) : Option B256 :=
  if 1 < leaves.length then
    match _hlevel : hashLevel keccak leaves with
    | none => none
    | some next => hashLevels keccak next
  else leaves[0]?
termination_by leaves.length
decreasing_by exact hashLevel_length ‹_› ‹_›

/-- The root of the given leaves, `none` if an index is out of range. -/
def merkleRoot (keccak : Bytes → B256) (leaves : List B256) : Option B256 :=
  if leaves.isEmpty then some ZERO_BYTES_HASH else hashLevels keccak leaves

theorem hashLevels_eq (leaves : List B256) :
    hashLevels keccak leaves = root (keccakPair keccak) leaves := by
  induction leaves using root.induct (keccakPair keccak) with
  | case1 => simp [hashLevels, root]
  | case2 top => simp [hashLevels, root]
  | case3 a b rest ih =>
      rw [hashLevels, if_pos (by simp), root, ← ih]
      split
      · next h => simp [hashLevel_eq] at h
      · next next h =>
          rw [hashLevel_eq (by simp), Option.some.injEq] at h
          rw [h]

theorem nextLayer_eq (layer : List B256) :
    nextLayer keccak layer = parents (keccakPair keccak) layer := by
  induction layer using nextLayer.induct with
  | case1 a b rest ih => rw [nextLayer, ih, parents_cons_cons]
  | case2 a => rfl
  | case3 => rfl

theorem reduceLayers_eq (layer : List B256) :
    reduceLayers keccak layer = root (keccakPair keccak) layer := by
  induction layer using root.induct (keccakPair keccak) with
  | case1 => simp [reduceLayers, root]
  | case2 top => simp [reduceLayers, root]
  | case3 a b rest ih => rw [reduceLayers, nextLayer_eq, ih, root]

theorem calculateMerkleRoot_eq (leaves : List B256) :
    calculateMerkleRoot keccak leaves = root (keccakPair keccak) leaves := by
  match leaves with
  | [] => simp [calculateMerkleRoot, root]
  | [leaf] => simp [calculateMerkleRoot, root]
  | a :: b :: rest =>
      rw [calculateMerkleRoot, reduceLayers_eq, nextLayer_eq, root]
      · intro h
        cases h
      · intro leaf h
        cases h

theorem merkleRoot_eq (hne : leaves ≠ []) :
    merkleRoot keccak leaves = root (keccakPair keccak) leaves := by
  rw [merkleRoot, if_neg (by simpa using hne), hashLevels_eq]

/-- The inputs that are hashed for a root. -/
def hashInputs (keccak : Bytes → B256) (leaves : List B256) : List Bytes :=
  (joined (keccakPair keccak) leaves).map fun pair => pair.1.bytes ++ pair.2.bytes

/-- Without collisions among the inputs there are none among the pairs. -/
theorem injOn_joined {others : List B256} (hinj : Set.InjOn keccak
      {input | input ∈ hashInputs keccak leaves ∨ input ∈ hashInputs keccak others}) :
    Set.InjOn (fun pair : B256 × B256 => keccakPair keccak pair.1 pair.2)
      {pair | pair ∈ joined (keccakPair keccak) leaves ∨
        pair ∈ joined (keccakPair keccak) others} := by
  intro pair hpair other hother h
  have hinput : ∀ q : B256 × B256, (q ∈ joined (keccakPair keccak) leaves ∨
      q ∈ joined (keccakPair keccak) others) →
      (q.1.bytes ++ q.2.bytes ∈ hashInputs keccak leaves ∨
        q.1.bytes ++ q.2.bytes ∈ hashInputs keccak others) := by
    intro q hq
    exact hq.imp (fun hq => List.mem_map.mpr ⟨q, hq, rfl⟩) (fun hq => List.mem_map.mpr ⟨q, hq, rfl⟩)
  have hbytes := hinj (hinput pair hpair) (hinput other hother) h
  obtain ⟨hleft, hright⟩ := List.append_inj hbytes (by rw [pair.1.length_eq, other.1.length_eq])
  exact Prod.ext (B256.ext hleft) (B256.ext hright)

/-- Both implementations compute the Merkle root of the leaves. Leaves of one number
with one root are the same leaves, as long as no two of the 64-byte inputs that are
hashed for them collide. -/
theorem merkle_roots_agree_and_bind (keccak : Bytes → B256) :
    (∀ leaves : List B256, leaves ≠ [] → ∃ root,
      merkleRoot keccak leaves = some root ∧ calculateMerkleRoot keccak leaves = some root ∧
      Merkle.root (keccakPair keccak) leaves = some root) ∧
    ∀ leaves others : List B256, leaves ≠ [] → leaves.length = others.length →
      Set.InjOn keccak
        {input | input ∈ hashInputs keccak leaves ∨ input ∈ hashInputs keccak others} →
      merkleRoot keccak leaves = merkleRoot keccak others → leaves = others := by
  constructor
  · intro leaves hne
    obtain ⟨root, hroot⟩ := exists_root (keccakPair keccak) hne
    exact ⟨root, by rw [merkleRoot_eq hne, hroot], by rw [calculateMerkleRoot_eq, hroot], hroot⟩
  · intro leaves others hne hlength hinj h
    have hothers : others ≠ [] := by
      rintro rfl
      exact hne (List.length_eq_zero_iff.mp hlength)
    rw [merkleRoot_eq hne, merkleRoot_eq hothers] at h
    exact root_inj hlength (injOn_joined hinj) h

theorem hashInputs_three (a b c : B256) :
    hashInputs keccak [a, b, c] = [a.bytes ++ b.bytes, c.bytes ++ c.bytes,
      (keccakPair keccak a b).bytes ++ (keccakPair keccak c c).bytes] := by
  simp [hashInputs, joined, parents, padded, pairs]

/-- The digests of the trees over the leaves 1, 2, 3 and 1, 2, 2. -/
def threeDigests : List (Bytes × B256) :=
  [((B256.ofNat 1).bytes ++ (B256.ofNat 2).bytes, B256.ofNat 4),
    ((B256.ofNat 3).bytes ++ (B256.ofNat 3).bytes, B256.ofNat 5),
    ((B256.ofNat 4).bytes ++ (B256.ofNat 5).bytes, B256.ofNat 6),
    ((B256.ofNat 2).bytes ++ (B256.ofNat 2).bytes, B256.ofNat 7),
    ((B256.ofNat 4).bytes ++ (B256.ofNat 7).bytes, B256.ofNat 8)]

theorem merkle_roots_differ :
    (∃ root, merkleRoot (tableHash threeDigests) [B256.ofNat 1, B256.ofNat 2, B256.ofNat 3] =
      some root) ∧
    merkleRoot (tableHash threeDigests) [B256.ofNat 1, B256.ofNat 2, B256.ofNat 3] ≠
      merkleRoot (tableHash threeDigests) [B256.ofNat 1, B256.ofNat 2, B256.ofNat 2] := by
  have hinj : Set.InjOn (tableHash threeDigests) {input | input ∈ threeDigests.map Prod.fst} :=
    injOn_tableHash (by decide +kernel) fun _ h => h
  obtain ⟨root, hroot, -⟩ := (merkle_roots_agree_and_bind (tableHash threeDigests)).1
    [B256.ofNat 1, B256.ofNat 2, B256.ofNat 3] (by simp)
  refine ⟨⟨root, hroot⟩, fun h => ?_⟩
  have heq := (merkle_roots_agree_and_bind (tableHash threeDigests)).2 _ _ (by simp) (by simp)
    (hinj.mono ?_) h
  · exact absurd heq (by decide +kernel)
  · rintro input (hinput | hinput)
    all_goals
      rw [hashInputs_three] at hinput
      revert input
      decide +kernel

end

end FluentStf.Executor
