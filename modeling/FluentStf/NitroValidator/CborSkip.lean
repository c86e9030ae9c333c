import FluentStf.NitroValidator.CborWalker

/-! Stepping over one item: whatever is nested in it, the walker takes that item and no more. -/
namespace FluentStf.NitroValidator.CborWalker

open Cbor

/-- The bytes that the walker takes for one item: every encoding of an item without tags, and
besides an integer whose head has no argument. -/
inductive Skipped : Bytes → Prop
  | integer {major n : Nat} {bytes : Bytes} (hmajor : major = 0 ∨ major = 1)
      (hhead : IsHead major n bytes) : Skipped bytes
  | openInteger {major : Nat} (hmajor : major = 0 ∨ major = 1) : Skipped [initialByte major 31]
  | string {major : Nat} {content bytes : Bytes} (hmajor : major = 2 ∨ major = 3)
      (hstring : IsString major content bytes) : Skipped bytes
  | array {parts : List Bytes} {bytes : Bytes} (hitems : ∀ part ∈ parts, Skipped part)
      (hframe : Framed 4 parts.length parts.flatten bytes) : Skipped bytes
  | map {parts : List (Bytes × Bytes)} {bytes : Bytes} (hkeys : ∀ part ∈ parts, Skipped part.1)
      (hvalues : ∀ part ∈ parts, Skipped part.2)
      (hframe : Framed 5 parts.length (parts.flatMap fun part => part.1 ++ part.2) bytes) :
      Skipped bytes
  | simple {n : Nat} {bytes : Bytes} (hhead : IsHead 7 n bytes) : Skipped bytes

theorem skipped_of_encodes {item : Item} {bytes : Bytes} (h : Encodes item bytes) :
    Skipped bytes := by
  induction h with
  | uint hhead => exact .integer (.inl rfl) hhead
  | nint hhead => exact .integer (.inr rfl) hhead
  | bytes hstring => exact .string (.inl rfl) hstring
  | text hstring => exact .string (.inr rfl) hstring
  | @array parts bytes _ hframe ih =>
      rw [List.flatMap_def, ← List.length_map Prod.snd] at hframe
      refine .array ?_ hframe
      intro part hpart
      obtain ⟨p, hp, rfl⟩ := List.mem_map.mp hpart
      exact ih p hp
  | @map parts bytes _ _ hframe ihkeys ihvalues =>
      have hpairs : (parts.flatMap fun part => part.1.2 ++ part.2.2) =
          (parts.map fun part => (part.1.2, part.2.2)).flatMap fun part => part.1 ++ part.2 := by
        rw [List.flatMap_map]
      rw [hpairs, ← List.length_map fun part : (Item × Bytes) × (Item × Bytes) =>
        (part.1.2, part.2.2)] at hframe
      refine .map ?_ ?_ hframe
      · intro part hpart
        obtain ⟨p, hp, rfl⟩ := List.mem_map.mp hpart
        exact ihkeys p hp
      · intro part hpart
        obtain ⟨p, hp, rfl⟩ := List.mem_map.mp hpart
        exact ihvalues p hp
  | simpleTiny hvalue => exact .simple (.tiny (UInt8.lt_iff_toNat_lt.mp hvalue))
  | @simpleWide value hvalue =>
      have hhead := @IsHead.wide 7 value.toNat 0 (by omega) (by simpa using value.toNat_lt)
      rw [pow_zero, beBytes_one, UInt8.ofNat_toNat] at hhead
      exact .simple hhead
  | float16 bits => exact .simple (.wide 1 (by omega) (by simpa using bits.toNat_lt))
  | float32 bits => exact .simple (.wide 2 (by omega) (by simpa using bits.toNat_lt))
  | float64 bits => exact .simple (.wide 3 (by omega) (by simpa using bits.toNat_lt))

theorem Skipped.delimited {bytes : Bytes} (h : Skipped bytes) :
    ∃ byte rest, bytes = byte :: rest ∧ byte ≠ breakByte := by
  have hopen : ∀ {major : Nat}, major < 7 → initialByte major 31 ≠ breakByte :=
    fun hmajor => initialByte_ne_break (by omega) (by omega) (.inl hmajor)
  have hframed : ∀ {major count : Nat} {body bytes : Bytes}, major < 7 →
      Framed major count body bytes → ∃ byte rest, bytes = byte :: rest ∧ byte ≠ breakByte := by
    intro major count body bytes hmajor hframe
    cases hframe with
    | counted hhead =>
        obtain ⟨byte, rest, rfl, hne⟩ := hhead.delimited (by omega)
        exact ⟨byte, rest ++ body, rfl, hne⟩
    | opened => exact ⟨_, _, rfl, hopen hmajor⟩
  cases h with
  | integer hmajor hhead => exact hhead.delimited (by omega)
  | openInteger hmajor => exact ⟨_, [], rfl, hopen (by omega)⟩
  | string hmajor hstring =>
      cases hstring with
      | whole hhead =>
          obtain ⟨byte, rest, rfl, hne⟩ := hhead.delimited (by omega)
          exact ⟨byte, _, rfl, hne⟩
      | chunked => exact ⟨_, _, rfl, hopen (by omega)⟩
  | array _ hframe => exact hframed (by omega) hframe
  | map _ _ hframe => exact hframed (by omega) hframe
  | simple hhead => exact hhead.delimited (by omega)

/-- What follows the head of an item, if what it holds is described by `P`. -/
inductive ContentsSkipped (P : Bytes → Prop) : Nat × Len → Bytes → Prop
  | integer {major : Nat} (len : Len) (hmajor : major = 0 ∨ major = 1) :
      ContentsSkipped P (major, len) []
  | string {major : Nat} {len : Len} {content bytes : Bytes} (hmajor : major = 2 ∨ major = 3)
      (hcontent : ContentBytes major len content bytes) : ContentsSkipped P (major, len) bytes
  | array {len : Len} {bytes : Bytes} (h : LenBytes (fun _ _ part => P part) len () () bytes) :
      ContentsSkipped P (4, len) bytes
  | map {len : Len} {bytes : Bytes} (h : LenBytes (fun _ _ part => ∃ key value,
      part = key ++ value ∧ P key ∧ P value) len () () bytes) : ContentsSkipped P (5, len) bytes
  | simple (n : Nat) : ContentsSkipped P (7, some n) []

theorem parts_unit_iff {P : Bytes → Prop} {parts : List Bytes} :
    Parts (fun _ _ part => P part) () parts () ↔ ∀ part ∈ parts, P part := by
  induction parts with
  | nil => exact iff_of_true (.nil _) (by simp)
  | cons part parts ih =>
      rw [List.forall_mem_cons, ← ih]
      constructor
      · intro h
        cases h with
        | cons head tail => exact ⟨head, tail⟩
      · exact fun h => .cons h.1 h.2

theorem exists_pairs {P : Bytes → Prop} {parts : List Bytes}
    (h : ∀ part ∈ parts, ∃ key value, part = key ++ value ∧ P key ∧ P value) :
    ∃ pairs : List (Bytes × Bytes), parts = pairs.map (fun pair => pair.1 ++ pair.2) ∧
      (∀ pair ∈ pairs, P pair.1) ∧ ∀ pair ∈ pairs, P pair.2 := by
  induction parts with
  | nil => exact ⟨[], rfl, by simp, by simp⟩
  | cons part parts ih =>
      obtain ⟨key, value, rfl, hkey, hvalue⟩ := h part (.head _)
      obtain ⟨pairs, rfl, hkeys, hvalues⟩ := ih fun p hp => h p (.tail _ hp)
      exact ⟨(key, value) :: pairs, rfl, List.forall_mem_cons.mpr ⟨hkey, hkeys⟩,
        List.forall_mem_cons.mpr ⟨hvalue, hvalues⟩⟩

section Contents
variable {P : Bytes → Prop} {major : Nat} {len : Len} {bytes : Bytes}

theorem contents_integer_iff (hmajor : major = 0 ∨ major = 1) :
    ContentsSkipped P (major, len) bytes ↔ bytes = [] := by
  constructor
  · intro h
    cases h with
    | integer => rfl
    | string hmajor' => omega
    | array => omega
    | map => omega
    | simple => omega
  · rintro rfl
    exact .integer len hmajor

theorem contents_string_iff (hmajor : major = 2 ∨ major = 3) :
    ContentsSkipped P (major, len) bytes ↔ ∃ content, ContentBytes major len content bytes := by
  constructor
  · intro h
    cases h with
    | integer _ hmajor' => omega
    | string _ hcontent => exact ⟨_, hcontent⟩
    | array => omega
    | map => omega
    | simple => omega
  · rintro ⟨content, hcontent⟩
    exact .string hmajor hcontent

theorem contents_array_iff : ContentsSkipped P (4, len) bytes ↔
    LenBytes (fun _ _ part => P part) len () () bytes := by
  refine ⟨fun h => ?_, .array⟩
  cases h with
  | integer _ hmajor => omega
  | string hmajor => omega
  | array h => exact h

theorem contents_map_iff : ContentsSkipped P (5, len) bytes ↔
    LenBytes (fun _ _ part => ∃ key value, part = key ++ value ∧ P key ∧ P value)
      len () () bytes := by
  refine ⟨fun h => ?_, .map⟩
  cases h with
  | integer _ hmajor => omega
  | string hmajor => omega
  | map h => exact h

theorem contents_simple_iff :
    ContentsSkipped P (7, len) bytes ↔ len.isSome = true ∧ bytes = [] := by
  constructor
  · intro h
    cases h with
    | integer _ hmajor => omega
    | string hmajor => omega
    | simple n => exact ⟨rfl, rfl⟩
  · rintro ⟨hsome, rfl⟩
    obtain ⟨n, rfl⟩ := Option.isSome_iff_exists.mp hsome
    exact .simple n

end Contents

section Skipping
variable {skip : Reader Unit} {P Q : Bytes → Prop}

theorem reads_pair (hskip : Reads skip (fun _ bytes => P bytes) (fun _ bytes => Q bytes)) :
    Reads (do skip; skip : Reader Unit)
      (fun _ part => ∃ key value, part = key ++ value ∧ P key ∧ P value)
      (fun _ part => ∃ key value, part = key ++ value ∧ Q key ∧ Q value) := by
  refine (hskip.bind fun _ => hskip).mono ?_ ?_
  · rintro _ bytes ⟨key, value, rfl, hkey, hvalue⟩
    exact ⟨(), key, value, rfl, hkey, hvalue⟩
  · rintro _ bytes ⟨_, key, value, rfl, hkey, hvalue⟩
    exact ⟨key, value, rfl, hkey, hvalue⟩

theorem reads_skipContents (hskip : Reads skip (fun _ bytes => P bytes) (fun _ bytes => Q bytes))
    (hP : ∀ {bytes}, P bytes → ∃ byte rest, bytes = byte :: rest ∧ byte ≠ breakByte)
    (major : Nat) (len : Len) : Reads (skipContents skip major len)
      (fun _ bytes => ContentsSkipped P (major, len) bytes)
      (fun _ bytes => ContentsSkipped Q (major, len) bytes) := by
  have hinteger : ∀ {major : Nat}, major = 0 ∨ major = 1 →
      Reads (return () : Reader Unit) (fun _ bytes => ContentsSkipped P (major, len) bytes)
        (fun _ bytes => ContentsSkipped Q (major, len) bytes) := by
    intro major hmajor
    simp only [contents_integer_iff hmajor]
    exact (Reads.pure ()).mono (fun h => ⟨rfl, h⟩) And.right
  have hstring : ∀ {major : Nat}, major = 2 ∨ major = 3 →
      Reads (do let _ ← readStrContents major len; return () : Reader Unit)
        (fun _ bytes => ContentsSkipped P (major, len) bytes)
        (fun _ bytes => ContentsSkipped Q (major, len) bytes) := by
    intro major hmajor
    simp only [contents_string_iff hmajor]
    refine (recognises_readStrContents (by omega) len).map.mono ?_ ?_
    · rintro _ bytes ⟨content, hcontent⟩
      exact ⟨content, rfl, hcontent⟩
    · rintro _ bytes ⟨content, -, hcontent⟩
      exact ⟨content, hcontent⟩
  unfold skipContents
  split
  · exact hinteger (.inl rfl)
  · exact hinteger (.inr rfl)
  · exact hstring (.inl rfl)
  · exact hstring (.inr rfl)
  · simp only [contents_array_iff]
    exact reads_iterMap (fun _ => hskip) hP len ()
  · simp only [contents_map_iff]
    refine reads_iterMap (fun _ => reads_pair hskip) ?_ len ()
    rintro _ _ bytes ⟨key, value, rfl, hkey, -⟩
    obtain ⟨byte, rest, rfl, hne⟩ := hP hkey
    exact ⟨byte, rest ++ value, rfl, hne⟩
  · simp only [contents_simple_iff]
    exact Reads.check
  · next h0 h1 h2 h3 h4 h5 h7 =>
      refine (Reads.error _).mono ?_ (fun h => h.elim)
      intro _ bytes h
      cases h with
      | integer _ hmajor => exact hmajor.elim h0 h1
      | string hmajor => exact hmajor.elim h2 h3
      | array => exact h4 rfl
      | map => exact h5 rfl
      | simple => exact h7 rfl

end Skipping

/-- An item is a head and what the head announces; what it holds is shorter than the item. -/
theorem Skipped.exists_contents {depth : Nat} {bytes : Bytes} (h : Skipped bytes)
    (hlength : bytes.length ≤ depth + 1) : ∃ p a b, bytes = a ++ b ∧ HeadBytes p a ∧
      ContentsSkipped (fun part => Skipped part ∧ part.length ≤ depth) p b := by
  have hinside : ∀ {parts : List Bytes}, parts.flatten.length < bytes.length →
      ∀ part ∈ parts, part.length ≤ depth := by
    intro parts hlt part hpart
    have := (List.sublist_flatten_of_mem hpart).length_le
    omega
  cases h with
  | integer hmajor hhead =>
      exact ⟨_, bytes, [], (List.append_nil _).symm, .counted (by omega) hhead, .integer _ hmajor⟩
  | openInteger hmajor => exact ⟨_, _, [], rfl, .opened (by omega), .integer _ hmajor⟩
  | string hmajor hstring =>
      obtain ⟨len, a, b, rfl, hhead, hcontent⟩ := (isString_iff (by omega)).mp hstring
      exact ⟨_, a, b, rfl, hhead, .string hmajor hcontent⟩
  | @array parts _ hitems hframe =>
      have hparts : Parts (fun _ _ part => Skipped part ∧ part.length ≤ depth) () parts () :=
        parts_unit_iff.mpr fun part hpart =>
          ⟨hitems part hpart, hinside hframe.length_lt part hpart⟩
      obtain ⟨len, a, b, rfl, hhead, hloop⟩ := (framed_iff (by omega)).mpr ⟨parts, hframe, hparts⟩
      exact ⟨_, a, b, rfl, hhead, .array hloop⟩
  | @map pairs _ hkeys hvalues hframe =>
      rw [List.flatMap_def, ← List.length_map fun pair : Bytes × Bytes => pair.1 ++ pair.2]
        at hframe
      have hparts : Parts (fun _ _ part => ∃ key value, part = key ++ value ∧
          (Skipped key ∧ key.length ≤ depth) ∧ Skipped value ∧ value.length ≤ depth) ()
          (pairs.map fun pair => pair.1 ++ pair.2) () := by
        refine parts_unit_iff.mpr fun part hpart => ?_
        have hle := hinside hframe.length_lt part hpart
        obtain ⟨pair, hpair, rfl⟩ := List.mem_map.mp hpart
        rw [List.length_append] at hle
        exact ⟨pair.1, pair.2, rfl, ⟨hkeys pair hpair, by omega⟩, hvalues pair hpair, by omega⟩
      obtain ⟨len, a, b, rfl, hhead, hloop⟩ := (framed_iff (by omega)).mpr ⟨_, hframe, hparts⟩
      exact ⟨_, a, b, rfl, hhead, .map hloop⟩
  | simple hhead =>
      exact ⟨_, bytes, [], (List.append_nil _).symm, .counted (by omega) hhead, .simple _⟩

theorem skipped_of_contents {p : Nat × Len} {a b : Bytes} (hhead : HeadBytes p a)
    (hcontents : ContentsSkipped Skipped p b) : Skipped (a ++ b) := by
  cases hcontents with
  | integer len hmajor =>
      rw [List.append_nil]
      cases hhead with
      | counted _ hhead => exact .integer hmajor hhead
      | opened => exact .openInteger hmajor
  | string hmajor hcontent =>
      exact .string hmajor ((isString_iff (by omega)).mpr ⟨_, a, b, rfl, hhead, hcontent⟩)
  | array hloop =>
      obtain ⟨parts, hframe, hparts⟩ := (framed_iff (by omega)).mp ⟨_, a, b, rfl, hhead, hloop⟩
      exact .array (parts_unit_iff.mp hparts) hframe
  | map hloop =>
      obtain ⟨parts, hframe, hparts⟩ := (framed_iff (by omega)).mp ⟨_, a, b, rfl, hhead, hloop⟩
      obtain ⟨pairs, rfl, hkeys, hvalues⟩ := exists_pairs (parts_unit_iff.mp hparts)
      rw [List.length_map, ← List.flatMap_def] at hframe
      exact .map hkeys hvalues hframe
  | simple n =>
      rw [List.append_nil]
      cases hhead with
      | counted _ hhead => exact .simple hhead

/-- Whatever is taken at some depth is one item, and every item is taken at a depth that is
not below its length. -/
theorem reads_skipItemAt (depth : Nat) :
    Reads (skipItemAt depth) (fun _ bytes => Skipped bytes ∧ bytes.length ≤ depth)
      (fun _ bytes => Skipped bytes) := by
  induction depth with
  | zero =>
      refine (Reads.error _).mono ?_ (fun h => h.elim)
      rintro _ bytes ⟨h, hlength⟩
      obtain ⟨byte, rest, rfl, -⟩ := h.delimited
      simp at hlength
  | succ depth ih =>
      refine (recognises_readHead.bind fun p =>
        reads_skipContents ih (fun h => h.1.delimited) p.1 p.2).mono ?_ ?_
      · rintro _ bytes ⟨h, hlength⟩
        exact h.exists_contents hlength
      · rintro _ bytes ⟨p, a, b, rfl, hhead, hcontents⟩
        exact skipped_of_contents hhead hcontents

theorem recognises_skipItem : Recognises skipItem (fun _ bytes => Skipped bytes) where
  sound := (reads_skipItemAt _).sound
  complete := fun hfits h hpast => (reads_skipItemAt _).complete hfits ⟨h, hpast.length_le⟩ hpast

end FluentStf.NitroValidator.CborWalker
