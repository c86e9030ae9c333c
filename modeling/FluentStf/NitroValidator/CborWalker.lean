import FluentStf.Cbor
import FluentStf.Reader

/-! The CBOR walker of the attestation validator.

The walker does not build items: it reads the few it needs and steps over all others. For
each of its readers `Reads` says which bytes it takes. -/
namespace FluentStf.NitroValidator.CborWalker

open Cbor

def readU8 : Reader UInt8 := Reader.readU8 "cbor: eof"

def readBytes (n : Nat) : Reader Bytes := Reader.readBytes "cbor: overflow" "cbor: eof" n

/-- The length of a string or the number of items; `none` is the open form. -/
abbrev Len := Option Nat

def readArg (info : Nat) : Reader Len :=
  if info ≤ 23 then return some info
  else if info = 24 then do
    let b ← readU8
    return some b.toNat
  else if info = 25 then do
    let b ← readBytes 2
    return some (Rlp.ofBigEndian b)
  else if info = 26 then do
    let b ← readBytes 4
    return some (Rlp.ofBigEndian b)
  else if info = 27 then do
    let b ← readBytes 8
    return some (Rlp.ofBigEndian b)
  else if info = 31 then return none
  else fun _ => .error ("cbor: reserved info byte " ++ toString info)

def readHead : Reader (Nat × Len) := do
  let ib ← readU8
  let arg ← readArg (ib &&& 0x1f).toNat
  return ((ib >>> 5).toNat, arg)

/-- The loop over the entries of a map, counted or until the break byte. The loops over the items
of an array have the same form. -/
def iterMap {σ : Type} (body : σ → Reader σ) (len : Len) (s : σ) : Reader σ :=
  match len with
  | some n => Reader.times body n s
  | none => Reader.untilByte breakByte "cbor: eof" body s

/-- One piece of a string in the open form, added to what was read before. -/
def readChunk (majorExpected : Nat) (out : Bytes) : Reader Bytes := do
  let (m, l) ← readHead
  Reader.check (m = majorExpected) "cbor: indefinite chunk major mismatch"
  let n ← Reader.expectSome "cbor: nested indefinite not allowed" l
  let chunk ← readBytes n
  return out ++ chunk

def readStrContents (majorExpected : Nat) (len : Len) : Reader Bytes :=
  match len with
  | some n => readBytes n
  | none => Reader.untilByte breakByte "cbor: eof" (readChunk majorExpected) []

/-- What follows the head of an item to be stepped over. -/
def skipContents (skipItem : Reader Unit) (major : Nat) (len : Len) : Reader Unit :=
  match major with
  | 0 | 1 => return ()
  | 2 | 3 => do
      let _ ← readStrContents major len
      return ()
  | 4 => iterMap (fun _ => skipItem) len ()
  | 5 => iterMap (fun _ => do skipItem; skipItem) len ()
  | 7 => Reader.check (len.isSome = true) "cbor: unexpected break while skipping"
  | _ => fun _ => .error ("cbor: unsupported major " ++ toString major)

/-- One item is nested at most as deep as there are bytes left: each level takes its head. -/
def skipItemAt : Nat → Reader Unit
  | 0 => fun _ => .error "cbor: eof"
  | depth + 1 => do
      let (major, len) ← readHead
      skipContents (skipItemAt depth) major len

def skipItem : Reader Unit := fun c => skipItemAt c.rest.length c

def expectMap : Reader Len := do
  let (m, l) ← readHead
  Reader.check (m = 5) "cbor: expected map"
  return l

def expectTstr : Reader Bytes := do
  let (m, l) ← readHead
  Reader.check (m = 3) "cbor: expected tstr"
  readStrContents 3 l

def expectUint : Reader Nat := do
  let (m, l) ← readHead
  Reader.check (m = 0) "cbor: expected uint"
  Reader.expectSome "cbor: uint cannot be indefinite" l

def expectBstr : Reader Bytes := do
  let (m, l) ← readHead
  Reader.check (m = 2) "cbor: expected bstr"
  readStrContents 2 l

/-- Null is the one byte `0xf6`. -/
def expectBstrOrNull : Reader (Option Bytes) := fun c =>
  if c.peek = some 0xf6 then .ok (none, c.next)
  else (do let b ← expectBstr; return some b : Reader (Option Bytes)) c

/-- A byte string where null is refused with a message. -/
def expectBstrNotNull (message : String) : Reader Bytes := do
  let content ← expectBstrOrNull
  Reader.expectSome message content

/-- The head of a map, then its entries one after the other. -/
def expectEntries {σ : Type} (body : σ → Reader σ) (s : σ) : Reader σ := do
  let len ← expectMap
  iterMap body len s

/-! Heads -/

/-- What the additional information of a first byte says about the bytes after it. -/
inductive ArgBytes (info : Nat) : Len → Bytes → Prop
  | tiny (h : info < 24) : ArgBytes info (some info) []
  | wide {arg : Nat} (i : Nat) (hi : i < 4) (hinfo : info = 24 + i) (harg : arg < 256 ^ 2 ^ i) :
      ArgBytes info (some arg) (beBytes (2 ^ i) arg)
  | opened (h : info = 31) : ArgBytes info none []

/-- A head with its argument, or an open one. -/
inductive HeadBytes : Nat × Len → Bytes → Prop
  | counted {major n : Nat} {bytes : Bytes} (hmajor : major < 8) (hhead : IsHead major n bytes) :
      HeadBytes (major, some n) bytes
  | opened {major : Nat} (hmajor : major < 8) : HeadBytes (major, none) [initialByte major 31]

/-- A number of `2 ^ i` bytes. -/
def WideArg (i : Nat) : Format Len := fun len bytes =>
  ∃ arg, len = some arg ∧ arg < 256 ^ 2 ^ i ∧ bytes = beBytes (2 ^ i) arg

theorem recognises_wideArg (i : Nat) :
    Recognises (do let b ← readBytes (2 ^ i); return some (Rlp.ofBigEndian b) : Reader Len)
      (WideArg i) := by
  refine (Reads.readBytes ..).map.mono ?_ ?_
  · rintro len bytes ⟨arg, rfl, harg, rfl⟩
    refine ⟨_, ?_, rfl, beBytes_length ..⟩
    rw [ofBigEndian_beBytes, Nat.mod_eq_of_lt harg]
  · rintro len bytes ⟨b, rfl, rfl, hlength⟩
    refine ⟨_, rfl, ?_, ?_⟩
    · rw [← hlength]
      exact Rlp.ofBigEndian_lt _
    · rw [← hlength, beBytes_ofBigEndian]

/-- One byte is a number of width one. -/
theorem recognises_byteArg :
    Recognises (do let b ← readU8; return some b.toNat : Reader Len) (WideArg 0) := by
  refine (Reads.readU8 _).map.mono ?_ ?_
  · rintro len bytes ⟨arg, rfl, harg, rfl⟩
    refine ⟨UInt8.ofNat arg, ?_, beBytes_one arg⟩
    rw [UInt8.toNat_ofNat', Nat.mod_eq_of_lt (by simpa using harg)]
  · rintro len bytes ⟨b, rfl, rfl⟩
    refine ⟨b.toNat, rfl, by simpa using b.toNat_lt, ?_⟩
    rw [pow_zero, beBytes_one, UInt8.ofNat_toNat]

theorem recognises_readArg (info : Nat) : Recognises (readArg info) (ArgBytes info) := by
  have hwide : ∀ {r : Reader Len} (i : Nat), i < 4 → info = 24 + i → Recognises r (WideArg i) →
      Recognises r (ArgBytes info) := by
    intro r i hi hinfo hr
    refine hr.mono ?_ ?_
    · intro len bytes harg
      cases harg with
      | tiny h => omega
      | wide j hj hinfo' harg =>
          obtain rfl : i = j := by omega
          exact ⟨_, rfl, harg, rfl⟩
      | opened h => omega
    · rintro len bytes ⟨arg, rfl, harg, rfl⟩
      exact .wide i hi hinfo harg
  unfold readArg
  split
  · next h =>
      refine (Reads.pure _).mono ?_ ?_
      · intro len bytes harg
        cases harg with
        | tiny => exact ⟨rfl, rfl⟩
        | wide => omega
        | opened => omega
      · rintro len bytes ⟨rfl, rfl⟩
        exact .tiny (by omega)
  · next hlarge =>
      split
      · next h => exact hwide 0 (by omega) h recognises_byteArg
      split
      · next h => exact hwide 1 (by omega) h (recognises_wideArg 1)
      split
      · next h => exact hwide 2 (by omega) h (recognises_wideArg 2)
      split
      · next h => exact hwide 3 (by omega) h (recognises_wideArg 3)
      split
      · next h =>
          refine (Reads.pure _).mono ?_ ?_
          · intro len bytes harg
            cases harg with
            | tiny => omega
            | wide => omega
            | opened => exact ⟨rfl, rfl⟩
          · rintro len bytes ⟨rfl, rfl⟩
            exact .opened h
      · refine (Reads.error _).mono ?_ (fun h => h.elim)
        intro len bytes harg
        cases harg with
        | tiny => omega
        | wide => omega
        | opened => omega

theorem recognises_readHead : Recognises readHead HeadBytes := by
  refine ((Reads.readU8 _).bind fun ib => (recognises_readArg _).map).mono ?_ ?_
  · intro p bytes hhead
    -- the first byte is cut into the major type and the information it was made of
    have hfirst : ∀ {major info : Nat} {len : Len} {rest : Bytes}, major < 8 → info < 32 →
        ArgBytes info len rest → Format.seq (fun byte bytes => bytes = [byte])
          (fun ib p bytes => ∃ x, p = ((ib >>> 5).toNat, x) ∧ ArgBytes (ib &&& 0x1f).toNat x bytes)
          (major, len) (initialByte major info :: rest) := by
      intro major info len rest hmajor hinfo harg
      obtain ⟨hhigh, hlow⟩ := initialByte_split hmajor hinfo
      refine ⟨initialByte major info, [_], rest, rfl, rfl, len, ?_, ?_⟩
      · rw [hhigh]
      · rwa [hlow]
    cases hhead with
    | counted hmajor hhead =>
        cases hhead with
        | tiny h => exact hfirst hmajor (by omega) (.tiny h)
        | wide i hi harg => exact hfirst hmajor (by omega) (.wide i hi rfl harg)
    | opened hmajor => exact hfirst hmajor (by omega) (.opened rfl)
  · rintro p bytes ⟨ib, a, b, rfl, rfl, len, rfl, harg⟩
    obtain ⟨hjoin, hmajor, -⟩ := initialByte_join ib
    cases harg with
    | tiny h =>
        have hhead := @IsHead.tiny (ib >>> 5).toNat _ h
        rw [hjoin] at hhead
        exact .counted hmajor hhead
    | wide i hi hinfo harg =>
        have hhead := @IsHead.wide (ib >>> 5).toNat _ i hi harg
        rw [← hinfo, hjoin] at hhead
        exact .counted hmajor hhead
    | opened h =>
        have hhead := HeadBytes.opened hmajor
        rw [← h, hjoin] at hhead
        exact hhead

/-! Strings -/

section Strings

variable {major : Nat}

/-- One more piece of a string behind those already read. -/
def ChunkBytes (major : Nat) (out : Bytes) : Format Bytes := fun out' bytes =>
  ∃ head chunk, IsHead major chunk.length head ∧ bytes = head ++ chunk ∧ out' = out ++ chunk

/-- What is left of a string behind its head. -/
inductive ContentBytes (major : Nat) : Len → Bytes → Bytes → Prop
  | whole (content : Bytes) : ContentBytes major (some content.length) content content
  | chunked (chunks : List (Bytes × Bytes))
      (hheads : ∀ chunk ∈ chunks, IsHead major chunk.2.length chunk.1) :
      ContentBytes major none (chunks.flatMap Prod.snd)
        (chunks.flatMap (fun chunk => chunk.1 ++ chunk.2) ++ [breakByte])

theorem recognises_readChunk (hmajor : major < 8) (out : Bytes) :
    Recognises (readChunk major out) (ChunkBytes major out) := by
  refine (recognises_readHead.bind fun p => Reads.check_bind fun _ =>
    (Reads.expectSome p.2).bind fun n => (Reads.readBytes _ _ n).map).mono ?_ ?_
  · rintro out' bytes ⟨head, chunk, hhead, rfl, rfl⟩
    exact ⟨(major, some chunk.length), head, chunk, rfl, .counted hmajor hhead, rfl,
      chunk.length, [], chunk, rfl, ⟨rfl, rfl⟩, chunk, rfl, rfl, rfl⟩
  · rintro out' bytes ⟨⟨m, len⟩, head, _, rfl, hhead, rfl, n, _, chunk, rfl, ⟨hlen, rfl⟩, _, rfl,
      rfl, rfl⟩
    obtain rfl : len = some chunk.length := hlen
    cases hhead with
    | counted _ hhead => exact ⟨head, chunk, hhead, rfl, rfl⟩

theorem delimited_chunks (hmajor : major < 8) : Delimited (ChunkBytes major) breakByte := by
  rintro out out' bytes ⟨head, chunk, hhead, rfl, -⟩
  obtain ⟨byte, rest, rfl, hne⟩ := hhead.delimited hmajor
  exact ⟨byte, rest ++ chunk, rfl, hne⟩

theorem parts_chunks_iff {out out' : Bytes} {parts : List Bytes} :
    Parts (ChunkBytes major) out parts out' ↔ ∃ chunks : List (Bytes × Bytes),
      (∀ chunk ∈ chunks, IsHead major chunk.2.length chunk.1) ∧
      parts = chunks.map (fun chunk => chunk.1 ++ chunk.2) ∧
      out' = out ++ chunks.flatMap Prod.snd := by
  constructor
  · intro h
    induction h with
    | nil out => exact ⟨[], by simp, rfl, by simp⟩
    | cons head _ ih =>
        obtain ⟨hd, chunk, hhead, rfl, rfl⟩ := head
        obtain ⟨chunks, hheads, rfl, rfl⟩ := ih
        refine ⟨(hd, chunk) :: chunks, ?_, rfl, ?_⟩
        · intro c hc
          rcases List.mem_cons.mp hc with rfl | hc
          · exact hhead
          · exact hheads c hc
        · rw [List.flatMap_cons, List.append_assoc]
  · rintro ⟨chunks, hheads, rfl, rfl⟩
    induction chunks generalizing out with
    | nil =>
        rw [List.flatMap_nil, List.append_nil]
        exact .nil _
    | cons chunk chunks ih =>
        have hhead := hheads chunk (.head _)
        rw [List.flatMap_cons, ← List.append_assoc]
        exact .cons ⟨chunk.1, chunk.2, hhead, rfl, rfl⟩
          (ih fun c hc => hheads c (.tail _ hc))

theorem recognises_readStrContents (hmajor : major < 8) (len : Len) :
    Recognises (readStrContents major len) (ContentBytes major len) := by
  cases len with
  | some n =>
      refine (Reads.readBytes _ _ n).mono ?_ ?_
      · rintro content bytes ⟨⟩
        exact ⟨rfl, rfl⟩
      · rintro content bytes ⟨rfl, rfl⟩
        exact .whole _
  | none =>
      refine (Reads.untilByte (recognises_readChunk hmajor) (delimited_chunks hmajor) []).mono ?_ ?_
      · intro content bytes h
        cases h with
        | chunked chunks hheads =>
            refine ⟨_, ?_, parts_chunks_iff.mpr ⟨chunks, hheads, rfl, rfl⟩⟩
            rw [List.flatMap_def]
      · rintro content bytes ⟨parts, rfl, hparts⟩
        obtain ⟨chunks, hheads, rfl, rfl⟩ := parts_chunks_iff.mp hparts
        rw [← List.flatMap_def]
        exact .chunked chunks hheads

/-- A string: its head, then the rest of it. -/
theorem isString_iff (hmajor : major < 8) {content bytes : Bytes} :
    IsString major content bytes ↔ ∃ len a b, bytes = a ++ b ∧ HeadBytes (major, len) a ∧
      ContentBytes major len content b := by
  constructor
  · intro h
    cases h with
    | whole hhead => exact ⟨_, _, _, rfl, .counted hmajor hhead, .whole _⟩
    | chunked chunks hheads => exact ⟨none, [_], _, rfl, .opened hmajor, .chunked chunks hheads⟩
  · rintro ⟨len, a, b, rfl, hhead, hcontent⟩
    cases hcontent with
    | whole =>
        cases hhead with
        | counted _ hhead => exact .whole hhead
    | chunked chunks hheads =>
        cases hhead
        exact .chunked chunks hheads

/-- The readers of text strings and of byte strings. -/
theorem recognises_string (hmajor : major < 8) (message : String) :
    Recognises (do
      let (m, l) ← readHead
      Reader.check (m = major) message
      readStrContents major l) (IsString major) := by
  refine (recognises_readHead.bind fun p => Reads.check_bind fun _ =>
    recognises_readStrContents hmajor p.2).mono ?_ ?_
  · intro content bytes h
    obtain ⟨len, a, b, rfl, hhead, hcontent⟩ := (isString_iff hmajor).mp h
    exact ⟨(major, len), a, b, rfl, hhead, rfl, hcontent⟩
  · rintro content bytes ⟨⟨m, len⟩, a, b, rfl, hhead, rfl, hcontent⟩
    exact (isString_iff hmajor).mpr ⟨len, a, b, rfl, hhead, hcontent⟩

theorem recognises_expectTstr : Recognises expectTstr (IsString 3) :=
  recognises_string (by decide) _

theorem recognises_expectBstr : Recognises expectBstr (IsString 2) :=
  recognises_string (by decide) _

theorem recognises_expectUint : Recognises expectUint (IsHead 0) := by
  refine (recognises_readHead.bind fun p => Reads.check_bind fun _ =>
    Reads.expectSome p.2).mono ?_ ?_
  · intro n bytes h
    exact ⟨(0, some n), bytes, [], (List.append_nil _).symm, .counted (by decide) h, rfl, rfl, rfl⟩
  · rintro n bytes ⟨⟨m, len⟩, a, _, rfl, hhead, rfl, hlen, rfl⟩
    obtain rfl : len = some n := hlen
    rw [List.append_nil]
    cases hhead with
    | counted _ hhead => exact hhead

theorem recognises_expectBstrNotNull (message : String) :
    Recognises (expectBstrNotNull message) (IsString 2) where
  sound := fun {c content d} hr => by
    obtain ⟨⟨o, c'⟩, ho, hcontent⟩ := bind_eq_ok.mp hr
    unfold expectBstrOrNull at ho
    split at ho
    · cases ho
      cases hcontent
    · obtain ⟨taken, ⟨content', rfl, hstring⟩, hpast⟩ := recognises_expectBstr.map.sound ho
      cases hcontent
      exact ⟨taken, hstring, hpast⟩
  complete := by
    rintro c content d taken hfits hstring hpast
    obtain ⟨info, rest, rfl, hinfo⟩ := hstring.eq_cons
    have hpeek : c.peek ≠ some 0xf6 := by
      rw [hpast.peek_cons]
      intro heq
      have hnat := congrArg UInt8.toNat (Option.some.inj heq)
      rw [initialByte_toNat (by decide) hinfo] at hnat
      have hnull : (0xf6 : UInt8).toNat = 246 := rfl
      omega
    refine bind_eq_ok.mpr ⟨(some content, d), ?_, rfl⟩
    unfold expectBstrOrNull
    rw [if_neg hpeek]
    exact recognises_expectBstr.map.complete hfits ⟨content, rfl, hstring⟩ hpast

end Strings

/-! Loops over the items of an array or a map -/

section Items

variable {σ : Type} {body : σ → Reader σ} {F F' : σ → Format σ} {major : Nat}

def LenBytes (F : σ → Format σ) (len : Len) (s : σ) : Format σ :=
  match len with
  | some n => Format.times F n s
  | none => Format.untilByte F breakByte s

theorem reads_iterMap (h : ∀ s, Reads (body s) (F s) (F' s)) (hdelimited : Delimited F breakByte)
    (len : Len) (s : σ) : Reads (iterMap body len s) (LenBytes F len s) (LenBytes F' len s) := by
  cases len with
  | some n => exact Reads.times h n s
  | none => exact Reads.untilByte h hdelimited s

theorem framed_iff (hmajor : major < 8) {s t : σ} {bytes : Bytes} :
    (∃ len a b, bytes = a ++ b ∧ HeadBytes (major, len) a ∧ LenBytes F len s t b) ↔
      ∃ parts, Framed major parts.length parts.flatten bytes ∧ Parts F s parts t := by
  constructor
  · rintro ⟨len, a, b, rfl, hhead, hb⟩
    cases hhead with
    | counted _ hhead =>
        obtain ⟨parts, rfl, rfl, hparts⟩ := hb
        exact ⟨parts, .counted hhead, hparts⟩
    | opened =>
        obtain ⟨parts, rfl, hparts⟩ := hb
        exact ⟨parts, .opened, hparts⟩
  · rintro ⟨parts, hframe, hparts⟩
    cases hframe with
    | counted hhead =>
        exact ⟨some _, _, _, rfl, .counted hmajor hhead, parts, rfl, rfl, hparts⟩
    | opened => exact ⟨none, [_], _, rfl, .opened hmajor, parts, rfl, hparts⟩

theorem recognises_expectEntries (h : ∀ s, Recognises (body s) (F s))
    (hdelimited : Delimited F breakByte) (s : σ) :
    Recognises (expectEntries body s)
      (fun t bytes => ∃ parts, Framed 5 parts.length parts.flatten bytes ∧ Parts F s parts t) := by
  have hmap : Recognises expectMap (fun len bytes => HeadBytes (5, len) bytes) := by
    refine (recognises_readHead.bind fun p => Reads.check_bind fun _ => Reads.pure p.2).mono ?_ ?_
    · intro len bytes hhead
      exact ⟨(5, len), bytes, [], (List.append_nil _).symm, hhead, rfl, rfl, rfl⟩
    · rintro len bytes ⟨⟨m, _⟩, a, _, rfl, hhead, rfl, rfl, rfl⟩
      rwa [List.append_nil]
  refine (hmap.bind fun len => reads_iterMap h hdelimited len s).mono ?_ ?_
  · exact fun hparts => (framed_iff (by decide)).mpr hparts
  · exact fun hloop => (framed_iff (by decide)).mp hloop

end Items

end FluentStf.NitroValidator.CborWalker
