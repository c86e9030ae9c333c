import FluentStf.Blob.Decode
import FluentStf.Pull

/-! The iterator over the blocks of a payload. It reads the outer list once and
then one block list after the other, and hashes the first item of each. -/
namespace FluentStf.Blob

/-- What is read of one block. -/
structure BlockView where
  blockHash : B256
deriving DecidableEq

/-- The iterator over the blocks of a payload: what is unread, and how much of the outer list is
left. -/
structure BlockIter where
  cursor : Bytes
  initialized : Bool
  remaining : Nat
  done : Bool
deriving DecidableEq

def iterBlocks (payload : Bytes) : BlockIter := ⟨payload, false, 0, false⟩

/-- First call: the payload of the outer wrapping list. -/
def readOuter (start : Bytes) : Except BlobError (Nat × Bytes) :=
  match Rlp.Header.decode start with
  | .error e => .error (.outerDecode e)
  | .ok (outer, peek) =>
      if ¬outer.list then .error .outerNotList
      else
        let total := start.length - peek.length + outer.payloadLength
        if start.length < total then .error .outerExceeds
        else if total < start.length then .error .outerTrailing
        else .ok (outer.payloadLength, peek)

/-- The first item of a block list is the header, already encoded as a list. -/
def readHeader (inner : Bytes) : Except BlobError Bytes :=
  match Rlp.Header.decode inner with
  | .error e => .error (.headerDecode e)
  | .ok (headerMeta, innerPeek) =>
      if ¬headerMeta.list then .error .headerNotList
      else
        let headerTotal := inner.length - innerPeek.length + headerMeta.payloadLength
        if inner.length < headerTotal then .error .headerExceeds
        else .ok (inner.take headerTotal)

/-- The header of the block list at the cursor and the length of that list. -/
def readBlock (blockStart : Bytes) (remaining : Nat) : Except BlobError (Bytes × Nat) :=
  match Rlp.Header.decode blockStart with
  | .error e => .error (.blockDecode e)
  | .ok (blockHdr, peek) =>
      if ¬blockHdr.list then .error .blockNotList
      else
        let blockHeaderLen := blockStart.length - peek.length
        let blockTotal := blockHeaderLen + blockHdr.payloadLength
        if remaining < blockTotal then .error .blockExceeds
        else match readHeader ((blockStart.drop blockHeaderLen).take blockHdr.payloadLength) with
          | .error e => .error e
          | .ok headerBytes => .ok (headerBytes, blockTotal)

namespace BlockIter

/-- The part of a call that is the same for the first and for later ones. -/
def nextBlock (keccak : Bytes → B256) (it : BlockIter) :
    Option (Except BlobError BlockView) × BlockIter :=
  if it.remaining = 0 then (none, it)
  else match readBlock it.cursor it.remaining with
    | .error e => (some (.error e), { it with done := true })
    | .ok (headerBytes, blockTotal) =>
        (some (.ok ⟨keccak headerBytes⟩),
          { it with cursor := it.cursor.drop blockTotal, remaining := it.remaining - blockTotal })

def next (keccak : Bytes → B256) (it : BlockIter) :
    Option (Except BlobError BlockView) × BlockIter :=
  if it.done then (none, it)
  else if it.initialized then it.nextBlock keccak
  else if it.cursor = [] then (none, { it with initialized := true })
  else match readOuter it.cursor with
    | .error e => (some (.error e), { it with initialized := true, done := true })
    | .ok (remaining, peek) =>
        nextBlock keccak { it with cursor := peek, initialized := true, remaining := remaining }

end BlockIter

/-- A byte string that is a single RLP list. -/
def IsList (bytes : Bytes) : Prop :=
  ∃ body : Bytes, body.length < 2 ^ 64 ∧
    bytes = Rlp.Header.encode ⟨true, body.length⟩ ++ body

/-- A block list that the iterator accepts: a header, and any bytes behind it. -/
structure Entry where
  header : Bytes
  rest : Bytes
  header_isList : IsList header
  fits : (header ++ rest).length < 2 ^ 64

def Entry.encode (entry : Entry) : Bytes :=
  Rlp.Header.encode ⟨true, (entry.header ++ entry.rest).length⟩ ++ (entry.header ++ entry.rest)

theorem Entry.encode_length (entry : Entry) : entry.encode.length =
    (Rlp.Header.encode ⟨true, (entry.header ++ entry.rest).length⟩).length +
      (entry.header ++ entry.rest).length :=
  List.length_append

def Entry.view (keccak : Bytes → B256) (entry : Entry) : BlockView := ⟨keccak entry.header⟩

/-- The payload with the given entries in its outer list. -/
def payloadOf (entries : List Entry) : Bytes :=
  Rlp.Header.encode ⟨true, (entries.flatMap Entry.encode).length⟩ ++ entries.flatMap Entry.encode

section Reading

/-- How the length of what was read in front of the rest is computed. -/
theorem consumed {bytes front rest : Bytes} (h : bytes = front ++ rest) :
    bytes.length - rest.length = front.length := by
  rw [h, List.length_append, Nat.add_sub_cancel]

/-- Whoever asks for a list and gets an answer has read the header of a list. -/
theorem exists_list_header {α : Type} {bytes : Bytes} {decodeError : Rlp.DecodeError → BlobError}
    {notList : BlobError} {read : Rlp.Header → Bytes → Except BlobError α} {answer : α}
    (h : (match Rlp.Header.decode bytes with
      | .error e => .error (decodeError e)
      | .ok (header, peek) => if ¬header.list then .error notList else read header peek :
        Except BlobError α) = .ok answer) :
    ∃ n peek, bytes = Rlp.Header.encode ⟨true, n⟩ ++ peek ∧ n ≤ peek.length ∧ n < 2 ^ 64 ∧
      read ⟨true, n⟩ peek = .ok answer := by
  split at h
  · cases h
  · next header peek hd =>
      obtain ⟨list, n⟩ := header
      cases list with
      | false => cases h
      | true =>
          obtain ⟨heq, hle, hlt⟩ := Rlp.Header.decode_eq_list hd
          exact ⟨n, peek, heq, hle, hlt, by simpa using h⟩

theorem readOuter_ok_iff {start body : Bytes} {n : Nat} :
    readOuter start = .ok (n, body) ↔
      n = body.length ∧ body.length < 2 ^ 64 ∧
        start = Rlp.Header.encode ⟨true, body.length⟩ ++ body := by
  constructor
  · intro h
    unfold readOuter at h
    obtain ⟨m, peek, rfl, hle, hlt, h⟩ := exists_list_header h
    simp only [List.length_append, Nat.add_sub_cancel] at h
    split_ifs at h with h1 h2
    cases h
    have hm : n = body.length := by omega
    exact ⟨hm, hm ▸ hlt, by rw [hm]⟩
  · rintro ⟨rfl, hlt, rfl⟩
    simp [readOuter, Rlp.Header.decode_list hlt le_rfl]

theorem readHeader_ok_iff {inner header : Bytes} :
    readHeader inner = .ok header ↔ IsList header ∧ ∃ rest, inner = header ++ rest := by
  constructor
  · intro h
    unfold readHeader at h
    obtain ⟨m, peek, rfl, hle, hlt, h⟩ := exists_list_header h
    simp only [List.length_append, Nat.add_sub_cancel] at h
    split_ifs at h with hexceeds
    cases h
    rw [List.take_length_add_append]
    refine ⟨⟨peek.take m, ?_, ?_⟩, peek.drop m, ?_⟩
    · rw [List.length_take]
      omega
    · rw [List.length_take, Nat.min_eq_left hle]
    · rw [List.append_assoc, List.take_append_drop]
  · rintro ⟨⟨body, hlt, rfl⟩, rest, rfl⟩
    have hd : Rlp.Header.decode (Rlp.Header.encode ⟨true, body.length⟩ ++ body ++ rest) =
        .ok (⟨true, body.length⟩, body ++ rest) := by
      rw [List.append_assoc]
      exact Rlp.Header.decode_list hlt (by simp)
    simp only [readHeader, hd, not_true, if_false, consumed (List.append_assoc _ body rest)]
    rw [if_neg (by simp), List.take_left' (List.length_append)]

theorem readBlock_ok_iff {blockStart header : Bytes} {remaining total : Nat} :
    readBlock blockStart remaining = .ok (header, total) ↔
      ∃ (entry : Entry) (tail : Bytes), blockStart = entry.encode ++ tail ∧
        header = entry.header ∧ total = entry.encode.length ∧ total ≤ remaining := by
  constructor
  · intro h
    unfold readBlock at h
    obtain ⟨m, peek, rfl, hle, hlt, h⟩ := exists_list_header h
    simp only [List.length_append, Nat.add_sub_cancel, List.drop_left] at h
    split_ifs at h with hexceeds
    split at h
    · cases h
    · next bytes hread =>
        cases h
        obtain ⟨hlist, rest, hrest⟩ := readHeader_ok_iff.mp hread
        have hlength : (header ++ rest).length = m := by
          rw [← hrest, List.length_take, Nat.min_eq_left hle]
        refine ⟨⟨header, rest, hlist, by omega⟩, peek.drop m, ?_, rfl, ?_, by omega⟩
        · simp only [Entry.encode, hlength]
          rw [← hrest, List.append_assoc, List.take_append_drop]
        · simp only [Entry.encode, hlength, List.length_append]
  · rintro ⟨entry, tail, hstart, rfl, rfl, hle⟩
    rw [Entry.encode, List.append_assoc] at hstart
    have hd : Rlp.Header.decode blockStart =
        .ok (⟨true, (entry.header ++ entry.rest).length⟩, entry.header ++ entry.rest ++ tail) := by
      rw [hstart]
      exact Rlp.Header.decode_list entry.fits (by simp)
    have hdrop : blockStart.drop
        (Rlp.Header.encode ⟨true, (entry.header ++ entry.rest).length⟩).length =
        entry.header ++ entry.rest ++ tail := by
      rw [hstart, List.drop_left]
    have hread := readHeader_ok_iff.mpr ⟨entry.header_isList, entry.rest, rfl⟩
    simp only [readBlock, hd, not_true, if_false, consumed hstart, hdrop, List.take_left,
      hread]
    rw [entry.encode_length] at hle ⊢
    exact if_neg (Nat.not_lt.mpr hle)

end Reading

theorem Entry.encode_length_pos (entry : Entry) : 0 < entry.encode.length := by
  obtain ⟨code, tail, hcode, _⟩ :=
    Rlp.Header.encode_head ⟨true, (entry.header ++ entry.rest).length⟩ entry.fits
  rw [entry.encode_length, hcode, List.length_cons]
  omega

namespace BlockIter

variable {keccak : Bytes → B256}

/-- The iterator behind the header of the outer list. -/
def opened (body : Bytes) : BlockIter := ⟨body, true, body.length, false⟩

variable {item : Except BlobError BlockView} {body : Bytes} {it' : BlockIter}

theorem nextBlock_cases {it : BlockIter} (h : it.nextBlock keccak = (some item, it')) :
    (∃ e, item = .error e ∧ it'.done = true) ∨
      ∃ (entry : Entry) (tail : Bytes), it.cursor = entry.encode ++ tail ∧
        item = .ok (entry.view keccak) ∧
        it' = { it with cursor := tail, remaining := it.remaining - entry.encode.length } := by
  unfold nextBlock at h
  split_ifs at h with hend
  · cases h
  · split at h
    · next e _ =>
        cases h
        exact .inl ⟨e, rfl, rfl⟩
    · next hread =>
        cases h
        obtain ⟨entry, tail, hcursor, rfl, rfl, _⟩ := readBlock_ok_iff.mp hread
        exact .inr ⟨entry, tail, hcursor, rfl, by rw [hcursor, List.drop_left]⟩

theorem next_opened (body : Bytes) :
    (opened body).next keccak = (opened body).nextBlock keccak := rfl

theorem next_opened_none :
    (opened body).next keccak = (none, it') ↔ body = [] ∧ it' = opened [] := by
  constructor
  · intro h
    rw [next_opened, nextBlock] at h
    split_ifs at h with hend
    · obtain rfl : body = [] := List.length_eq_zero_iff.mp hend
      cases h
      exact ⟨rfl, rfl⟩
    · split at h <;> cases h
  · rintro ⟨rfl, rfl⟩
    rfl

/-- A block is given exactly if the cursor is at an acceptable entry. -/
theorem next_opened_ok {view : BlockView} :
    (opened body).next keccak = (some (.ok view), it') ↔
      ∃ (entry : Entry) (tail : Bytes), body = entry.encode ++ tail ∧
        view = entry.view keccak ∧ it' = opened tail := by
  constructor
  · intro h
    rcases nextBlock_cases (next_opened body ▸ h) with ⟨e, he, _⟩ | ⟨entry, tail, hbody, hview, rfl⟩
    · cases he
    · refine ⟨entry, tail, hbody, Except.ok.inj hview, ?_⟩
      obtain rfl : body = entry.encode ++ tail := hbody
      simp [opened]
  · rintro ⟨entry, tail, rfl, rfl, rfl⟩
    have hpos := entry.encode_length_pos
    have hread : readBlock (entry.encode ++ tail) (entry.encode ++ tail).length =
        .ok (entry.header, entry.encode.length) :=
      readBlock_ok_iff.mpr ⟨entry, tail, rfl, rfl, rfl, by simp⟩
    have hne : ¬(entry.encode ++ tail).length = 0 := by
      rw [List.length_append]
      omega
    rw [next_opened]
    simp only [nextBlock, opened, if_neg hne, hread, Entry.view, List.drop_left]
    rw [List.length_append, Nat.add_sub_cancel_left]

/-- After an error the iterator gives nothing more. -/
theorem next_of_done (it : BlockIter) (h : it.done = true) : it.next keccak = (none, it) :=
  if_pos h

theorem next_iterBlocks {payload : Bytes} (hlt : body.length < 2 ^ 64)
    (h : payload = Rlp.Header.encode ⟨true, body.length⟩ ++ body) :
    (iterBlocks payload).next keccak = (opened body).next keccak := by
  have hread := readOuter_ok_iff.mpr ⟨rfl, hlt, h⟩
  have hne : payload ≠ [] := by
    obtain ⟨code, tail, hcode, _⟩ := Rlp.Header.encode_head ⟨true, body.length⟩ hlt
    rw [h, hcode]
    simp
  simp [next, iterBlocks, hne, hread, opened]

/-- An error is the last item; a block uses up bytes of the payload. -/
def Gives (it : BlockIter) (item : Except BlobError BlockView) (it' : BlockIter) : Prop :=
  (∃ e, item = .error e) ∧ it'.done = true ∨
    (∃ view, item = .ok view) ∧ it'.done = false ∧ it'.cursor.length < it.cursor.length

theorem nextBlock_gives {it : BlockIter} (hdone : it.done = false)
    (h : it.nextBlock keccak = (some item, it')) : it.Gives item it' := by
  rcases nextBlock_cases h with ⟨e, he, hdone'⟩ | ⟨entry, tail, hcursor, hitem, rfl⟩
  · exact .inl ⟨⟨e, he⟩, hdone'⟩
  · have hpos := entry.encode_length_pos
    refine .inr ⟨⟨_, hitem⟩, hdone, ?_⟩
    rw [hcursor, List.length_append]
    simp only
    omega

theorem next_gives {it : BlockIter} (h : it.next keccak = (some item, it')) :
    it.done = false ∧ it.Gives item it' := by
  unfold next at h
  split_ifs at h with hdone hinit hempty
  · cases h
  · exact ⟨by simpa using hdone, nextBlock_gives (by simpa using hdone) h⟩
  · cases h
  · refine ⟨by simpa using hdone, ?_⟩
    split at h
    · next e _ =>
        cases h
        exact .inl ⟨⟨e, rfl⟩, rfl⟩
    · next remaining peek hread =>
        obtain ⟨_, _, hcursor⟩ := readOuter_ok_iff.mp hread
        rcases nextBlock_gives (by simpa using hdone) h with herror | ⟨hok, hdone', hlength⟩
        · exact .inl herror
        · refine .inr ⟨hok, hdone', ?_⟩
          rw [hcursor, List.length_append]
          simp only at hlength
          omega

def size (it : BlockIter) : Nat := if it.done then 0 else it.cursor.length + 1

theorem size_next {it : BlockIter} (h : it.next keccak = (some item, it')) :
    it'.size < it.size := by
  obtain ⟨hdone, ⟨_, hdone'⟩ | ⟨_, hdone', hlength⟩⟩ := next_gives h
  · simp [size, hdone, hdone']
  · simpa [size, hdone, hdone'] using hlength

/-- Blocks come first, and at most one error after them. -/
theorem yields_blocks {it : BlockIter} {items : List (Except BlobError BlockView)}
    (h : Pull.Yields (next keccak) it items) :
    ∃ views : List BlockView, items = views.map .ok ∨ ∃ e, items = views.map .ok ++ [.error e] := by
  induction h with
  | stop _ => exact ⟨[], .inl rfl⟩
  | item hnext hrest ih =>
      obtain ⟨_, ⟨⟨e, rfl⟩, hdone'⟩ | ⟨⟨view, rfl⟩, _⟩⟩ := next_gives hnext
      · cases hrest.unique (.stop (next_of_done _ hdone'))
        exact ⟨[], .inr ⟨e, rfl⟩⟩
      · obtain ⟨views, rfl | ⟨e, rfl⟩⟩ := ih
        · exact ⟨view :: views, .inl rfl⟩
        · exact ⟨view :: views, .inr ⟨e, rfl⟩⟩

/-- The iterator comes to its end on every payload. -/
theorem exists_yields (keccak : Bytes → B256) (payload : Bytes) :
    ∃ items, Pull.Yields (next keccak) (iterBlocks payload) items ∧
      items.length ≤ payload.length + 1 := by
  obtain ⟨items, h⟩ := Pull.exists_yields size_next (iterBlocks payload)
  exact ⟨items, h, h.length_le size_next⟩

/-- Only blocks are given exactly if entries fill the outer list. -/
theorem yields_opened {views : List BlockView} :
    Pull.Yields (next keccak) (opened body) (views.map .ok) ↔
      ∃ entries : List Entry, body = entries.flatMap Entry.encode ∧
        views = entries.map (Entry.view keccak) := by
  induction views generalizing body with
  | nil =>
      rw [List.map_nil, Pull.yields_nil_iff]
      constructor
      · rintro ⟨it', h⟩
        exact ⟨[], (next_opened_none.mp h).1, rfl⟩
      · rintro ⟨entries, rfl, hviews⟩
        obtain rfl : entries = [] := List.map_eq_nil_iff.mp hviews.symm
        exact ⟨_, next_opened_none.mpr ⟨rfl, rfl⟩⟩
  | cons view views ih =>
      rw [List.map_cons, Pull.yields_cons_iff]
      constructor
      · rintro ⟨it', h, hrest⟩
        obtain ⟨entry, tail, rfl, rfl, rfl⟩ := next_opened_ok.mp h
        obtain ⟨entries, rfl, rfl⟩ := ih.mp hrest
        exact ⟨entry :: entries, rfl, rfl⟩
      · rintro ⟨entries, rfl, hviews⟩
        cases entries with
        | nil => cases hviews
        | cons entry entries =>
            obtain ⟨rfl, rfl⟩ := List.cons.inj hviews
            exact ⟨_, next_opened_ok.mpr ⟨entry, _, rfl, rfl, rfl⟩, ih.mpr ⟨entries, rfl, rfl⟩⟩

/-- A payload gives only blocks exactly if it is empty or an outer list of entries. -/
theorem yields_iterBlocks {payload : Bytes} {views : List BlockView} :
    Pull.Yields (next keccak) (iterBlocks payload) (views.map .ok) ↔
      payload = [] ∧ views = [] ∨
        ∃ entries : List Entry, (entries.flatMap Entry.encode).length < 2 ^ 64 ∧
          payload = payloadOf entries ∧ views = entries.map (Entry.view keccak) := by
  constructor
  · intro h
    by_cases hempty : payload = []
    · subst hempty
      have hnone : Pull.Yields (next keccak) (iterBlocks []) [] := .stop rfl
      exact .inl ⟨rfl, List.map_eq_nil_iff.mp (h.unique hnone)⟩
    · rcases hread : readOuter payload with e | ⟨n, body⟩
      · have herror : Pull.Yields (next keccak) (iterBlocks payload) [.error e] := by
          refine .item ?_ (.stop (next_of_done ⟨payload, true, 0, true⟩ rfl))
          simp [next, iterBlocks, hempty, hread]
        obtain ⟨view, _, hview⟩ := List.mem_map.mp (h.unique herror ▸ List.mem_singleton_self _)
        cases hview
      · obtain ⟨_, hlt, hpayload⟩ := readOuter_ok_iff.mp hread
        rw [Pull.Yields.congr (next_iterBlocks hlt hpayload), yields_opened] at h
        obtain ⟨entries, rfl, rfl⟩ := h
        exact .inr ⟨entries, hlt, hpayload, rfl⟩
  · rintro (⟨rfl, rfl⟩ | ⟨entries, hlt, hpayload, rfl⟩)
    · exact .stop rfl
    · rw [Pull.Yields.congr (next_iterBlocks hlt hpayload), yields_opened]
      exact ⟨entries, rfl, rfl⟩

end BlockIter

end FluentStf.Blob
