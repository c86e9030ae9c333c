import FluentStf.Primitives
import Mathlib.Algebra.GroupWithZero.Nat
import Mathlib.Data.Fintype.Basic

/-! Nibble paths of the trie and their packing into the path bytes of leaves
and extensions. The high nibble of the first path byte holds the kind of the
node and the parity of the path. -/
namespace FluentStf.Mpt

/-- Half a byte. Every nibble of the source comes from a shift by four or a
mask with `0xf`. -/
abbrev Nibble := Fin 16

instance Nibble.neZero : NeZero 16 := ⟨by decide⟩

/-- What an operation reports instead of a result. -/
inductive Error where
  | NodeNotResolved (digest : B256)
  | ValueInBranch
  | Rlp
deriving DecidableEq

/-- A returned error, or a panic of the process. -/
inductive Fault where
  | error (e : Error)
  | panic
deriving DecidableEq

def highNibble (byte : UInt8) : Nibble := ⟨byte.toNat / 16, by have := byte.toNat_lt; omega⟩

def lowNibble (byte : UInt8) : Nibble := ⟨byte.toNat % 16, by omega⟩

def toNibs : Bytes → List Nibble
  | [] => []
  | byte :: rest => highNibble byte :: lowNibble byte :: toNibs rest

/-- Pack pairs of nibbles; an odd rest is dropped, as by `chunks_exact`. -/
def packNibs : List Nibble → Bytes
  | a :: b :: rest => UInt8.ofNat (16 * a.val + b.val) :: packNibs rest
  | _ => []

def toEncodedPath (nibs : List Nibble) (isLeaf : Bool) : Bytes :=
  let flag := if isLeaf then 0x20 else 0
  match nibs with
  | a :: rest =>
      if nibs.length % 2 = 0 then UInt8.ofNat flag :: packNibs nibs
      else UInt8.ofNat (flag + 0x10 + a.val) :: packNibs rest
  | [] => [UInt8.ofNat flag]

/-- Length of the common initial part. -/
def lcp : List Nibble → List Nibble → Nat
  | a :: as, b :: bs => if a = b then lcp as bs + 1 else 0
  | _, _ => 0

/-- The parity bit of the first path byte. -/
def isOdd (byte : UInt8) : Bool := byte.toNat / 16 % 2 = 1

/-- The kind bit of the first path byte. -/
def hasLeafFlag (byte : UInt8) : Bool := byte.toNat / 32 % 2 = 1

/-- The path of a node. An empty path field makes the process panic. -/
def prefixNibs : Bytes → Except Fault (List Nibble)
  | [] => .error .panic
  | first :: tail => .ok (if isOdd first then lowNibble first :: toNibs tail else toNibs tail)

@[simp] theorem lcp_append (p k : List Nibble) : lcp p (p ++ k) = p.length := by
  induction p with
  | nil => rfl
  | cons a p ih => simp [lcp, ih]

@[simp] theorem lcp_self (p : List Nibble) : lcp p p = p.length := by
  simpa using lcp_append p []

@[simp] theorem lcp_above (k q : List Nibble) : lcp (k ++ q) k = k.length := by
  induction k with
  | nil => cases q <;> rfl
  | cons b k ih => simp [lcp, ih]

theorem lcp_fork {a b : Nibble} (h : a ≠ b) (c l r : List Nibble) :
    lcp (c ++ a :: l) (c ++ b :: r) = c.length := by
  induction c with
  | nil => simp [lcp, h]
  | cons x c ih => simp [lcp, ih]

theorem toNibs_length (bytes : Bytes) : (toNibs bytes).length = 2 * bytes.length := by
  induction bytes with
  | nil => rfl
  | cons b bytes ih =>
      simp only [toNibs, List.length_cons, ih]
      omega

theorem byte_of_nibbles (b : UInt8) :
    UInt8.ofNat (16 * (highNibble b).val + (lowNibble b).val) = b := by
  have hb : 16 * (b.toNat / 16) + b.toNat % 16 = b.toNat := by omega
  simp [highNibble, lowNibble, hb]

theorem packNibs_toNibs (bytes : Bytes) : packNibs (toNibs bytes) = bytes := by
  induction bytes with
  | nil => rfl
  | cons b bytes ih => rw [toNibs, packNibs, byte_of_nibbles, ih]

theorem toNibs_injective : Function.Injective toNibs := by
  intro a b h
  rw [← packNibs_toNibs a, h, packNibs_toNibs]

theorem toNibs_bytes_length (key : B256) : (toNibs key.bytes).length = 64 := by
  rw [toNibs_length, key.length_eq]

theorem toNibs_bytes_ne {a b : B256} (h : a ≠ b) : toNibs a.bytes ≠ toNibs b.bytes :=
  toNibs_injective.ne fun he => h (B256.ext he)

theorem highNibble_ofNat (a b : Nibble) :
    highNibble (UInt8.ofNat (16 * a.val + b.val)) = a := by
  apply Fin.ext
  simp only [highNibble, UInt8.toNat_ofNat']
  omega

theorem lowNibble_ofNat (a b : Nibble) :
    lowNibble (UInt8.ofNat (16 * a.val + b.val)) = b := by
  apply Fin.ext
  simp only [lowNibble, UInt8.toNat_ofNat']
  omega

theorem toNibs_packNibs (nibs : List Nibble) (h : nibs.length % 2 = 0) :
    toNibs (packNibs nibs) = nibs := by
  match nibs with
  | [] => rfl
  | [a] => simp at h
  | a :: b :: rest =>
      have hrest : rest.length % 2 = 0 := by
        simp only [List.length_cons] at h
        omega
      rw [packNibs, toNibs, highNibble_ofNat, lowNibble_ofNat, toNibs_packNibs rest hrest]
termination_by nibs.length

/-- The path bytes of an even and of an odd path. -/
theorem toEncodedPath_even {nibs : List Nibble} (h : nibs.length % 2 = 0) (isLeaf : Bool) :
    toEncodedPath nibs isLeaf = UInt8.ofNat (if isLeaf then 0x20 else 0) :: packNibs nibs := by
  cases nibs with
  | nil => rfl
  | cons a rest => simp only [toEncodedPath, h, if_true]

theorem toEncodedPath_odd {a : Nibble} {rest : List Nibble} (h : rest.length % 2 = 0)
    (isLeaf : Bool) :
    toEncodedPath (a :: rest) isLeaf =
      UInt8.ofNat ((if isLeaf then 0x20 else 0) + 0x10 + a.val) :: packNibs rest := by
  have hodd : ¬(a :: rest).length % 2 = 0 := by
    simp only [List.length_cons]
    omega
  simp only [toEncodedPath, hodd, if_false]

theorem parity_cases (nibs : List Nibble) :
    nibs.length % 2 = 0 ∨ ∃ a rest, nibs = a :: rest ∧ rest.length % 2 = 0 := by
  cases nibs with
  | nil => exact .inl rfl
  | cons a rest =>
      by_cases h : rest.length % 2 = 0
      · exact .inr ⟨a, rest, rfl, h⟩
      · refine .inl ?_
        simp only [List.length_cons]
        omega

/-- Reading back the path bytes that the trie writes. -/
@[simp] theorem prefixNibs_toEncodedPath (nibs : List Nibble) (isLeaf : Bool) :
    prefixNibs (toEncodedPath nibs isLeaf) = .ok nibs := by
  rcases parity_cases nibs with h | ⟨a, rest, rfl, h⟩
  · have hflag : isOdd (UInt8.ofNat (if isLeaf then 0x20 else 0)) = false := by
      cases isLeaf <;> rfl
    simp [toEncodedPath_even h, prefixNibs, hflag, toNibs_packNibs nibs h]
  · have hflag : isOdd (UInt8.ofNat ((if isLeaf then 0x20 else 0) + 0x10 + a.val)) = true := by
      have := a.isLt
      cases isLeaf <;> simp [isOdd] <;> omega
    have hlow : lowNibble (UInt8.ofNat ((if isLeaf then 0x20 else 0) + 0x10 + a.val)) = a := by
      have := a.isLt
      apply Fin.ext
      cases isLeaf with
      | false => simp [lowNibble]
      | true =>
          simp [lowNibble]
          omega
    rw [toEncodedPath_odd h, prefixNibs, hflag, hlow, toNibs_packNibs rest h, if_pos rfl]

/-- The first path byte keeps the kind of the node. -/
theorem toEncodedPath_flag (nibs : List Nibble) (isLeaf : Bool) :
    ∃ first tail, toEncodedPath nibs isLeaf = first :: tail ∧ hasLeafFlag first = isLeaf := by
  rcases parity_cases nibs with h | ⟨a, rest, rfl, h⟩
  · exact ⟨_, _, toEncodedPath_even h isLeaf, by cases isLeaf <;> rfl⟩
  · refine ⟨_, _, toEncodedPath_odd h isLeaf, ?_⟩
    have := a.isLt
    cases isLeaf <;> simp [hasLeafFlag] <;> omega

/-- Path bytes determine both the path and the kind. -/
theorem toEncodedPath_inj {p q : List Nibble} {a b : Bool}
    (h : toEncodedPath p a = toEncodedPath q b) : p = q ∧ a = b := by
  constructor
  · have hp := prefixNibs_toEncodedPath p a
    rw [h, prefixNibs_toEncodedPath] at hp
    exact (Except.ok.inj hp).symm
  · obtain ⟨x, s, hx, hxa⟩ := toEncodedPath_flag p a
    obtain ⟨y, t, hy, hyb⟩ := toEncodedPath_flag q b
    rw [hx, hy] at h
    rw [← hxa, ← hyb, (List.cons.inj h).1]

theorem packNibs_length (nibs : List Nibble) : (packNibs nibs).length ≤ nibs.length / 2 := by
  match nibs with
  | [] => simp [packNibs]
  | [a] => simp [packNibs]
  | a :: b :: rest =>
      have := packNibs_length rest
      simp only [packNibs, List.length_cons]
      omega
termination_by nibs.length

theorem toEncodedPath_length (nibs : List Nibble) (isLeaf : Bool) :
    (toEncodedPath nibs isLeaf).length ≤ nibs.length / 2 + 1 := by
  rcases parity_cases nibs with h | ⟨a, rest, rfl, h⟩
  · rw [toEncodedPath_even h, List.length_cons]
    have := packNibs_length nibs
    omega
  · rw [toEncodedPath_odd h, List.length_cons]
    have := packNibs_length rest
    simp only [List.length_cons]
    omega

/-- The byte test and the nibble test agree on keys: a key is above another one
exactly when its nibbles are. -/
theorem toNibs_prefix_iff {a b : Bytes} : toNibs a <+: toNibs b ↔ a <+: b := by
  induction a generalizing b with
  | nil => simp [toNibs]
  | cons x a ih =>
      cases b with
      | nil => simp [toNibs]
      | cons y b =>
          simp only [toNibs, List.cons_prefix_cons, ih]
          constructor
          · rintro ⟨h1, h2, h3⟩
            refine ⟨?_, h3⟩
            rw [← byte_of_nibbles x, h1, h2, byte_of_nibbles]
          · rintro ⟨rfl, h⟩
            exact ⟨rfl, rfl, h⟩

end FluentStf.Mpt
