import FluentStf.Blob.Blocks
import Mathlib.Logic.Function.Iterate

/-! The block iterator with every operation that can stop the program: machine arithmetic and
slicing. None of them does, on any payload and in any call. -/
namespace FluentStf.Blob

/-- What would stop the program in a build with overflow checks. -/
inductive Panic where
  | subtractOverflow
  | addOverflow
  | sliceOutOfRange

section Checked

def checkedSub (a b : Nat) : Except Panic Nat :=
  if b ≤ a then .ok (a - b) else .error .subtractOverflow

/-- Addition of `usize` values. -/
def checkedAdd (a b : Nat) : Except Panic Nat :=
  if a + b < 2 ^ 64 then .ok (a + b) else .error .addOverflow

/-- `bytes[from..to]`. -/
def checkedSlice (bytes : Bytes) (first last : Nat) : Except Panic Bytes :=
  if first ≤ last ∧ last ≤ bytes.length then .ok ((bytes.drop first).take (last - first))
  else .error .sliceOutOfRange

def readOuterChecked (start : Bytes) : Except Panic (Except BlobError (Nat × Bytes)) :=
  match Rlp.Header.decode start with
  | .error e => .ok (.error (.outerDecode e))
  | .ok (outer, peek) =>
      if ¬outer.list then .ok (.error .outerNotList)
      else do
        let headerLen ← checkedSub start.length peek.length
        let total ← checkedAdd headerLen outer.payloadLength
        if start.length < total then .ok (.error .outerExceeds)
        else if total < start.length then .ok (.error .outerTrailing)
        else .ok (.ok (outer.payloadLength, peek))

def readHeaderChecked (inner : Bytes) : Except Panic (Except BlobError Bytes) :=
  match Rlp.Header.decode inner with
  | .error e => .ok (.error (.headerDecode e))
  | .ok (headerMeta, innerPeek) =>
      if ¬headerMeta.list then .ok (.error .headerNotList)
      else do
        let headerPrefixLen ← checkedSub inner.length innerPeek.length
        let headerTotal ← checkedAdd headerPrefixLen headerMeta.payloadLength
        if inner.length < headerTotal then .ok (.error .headerExceeds)
        else do
          let headerBytes ← checkedSlice inner 0 headerTotal
          return .ok headerBytes

def readBlockChecked (blockStart : Bytes) (remaining : Nat) :
    Except Panic (Except BlobError (Bytes × Nat)) :=
  match Rlp.Header.decode blockStart with
  | .error e => .ok (.error (.blockDecode e))
  | .ok (blockHdr, peek) =>
      if ¬blockHdr.list then .ok (.error .blockNotList)
      else do
        let blockHeaderLen ← checkedSub blockStart.length peek.length
        let blockTotal ← checkedAdd blockHeaderLen blockHdr.payloadLength
        if remaining < blockTotal then .ok (.error .blockExceeds)
        else do
          let inner ← checkedSlice blockStart blockHeaderLen blockTotal
          let header ← readHeaderChecked inner
          match header with
          | .error e => .ok (.error e)
          | .ok headerBytes => .ok (.ok (headerBytes, blockTotal))

namespace BlockIter

def nextBlockChecked (keccak : Bytes → B256) (it : BlockIter) :
    Except Panic (Option (Except BlobError BlockView) × BlockIter) :=
  if it.remaining = 0 then .ok (none, it)
  else do
    let block ← readBlockChecked it.cursor it.remaining
    match block with
    | .error e => .ok (some (.error e), { it with done := true })
    | .ok (headerBytes, blockTotal) => do
        let cursor ← checkedSlice it.cursor blockTotal it.cursor.length
        let remaining ← checkedSub it.remaining blockTotal
        return (some (.ok ⟨keccak headerBytes⟩),
          { it with cursor := cursor, remaining := remaining })

/-- `next` in a build that checks arithmetic and slices. -/
def nextChecked (keccak : Bytes → B256) (it : BlockIter) :
    Except Panic (Option (Except BlobError BlockView) × BlockIter) :=
  if it.done then .ok (none, it)
  else if it.initialized then it.nextBlockChecked keccak
  else if it.cursor = [] then .ok (none, { it with initialized := true })
  else do
    let outer ← readOuterChecked it.cursor
    match outer with
    | .error e => .ok (some (.error e), { it with initialized := true, done := true })
    | .ok (remaining, peek) =>
        nextBlockChecked keccak
          { it with cursor := peek, initialized := true, remaining := remaining }

end BlockIter

end Checked

/-! No operation goes wrong -/

section NoPanic

theorem checkedSub_ok {a b : Nat} (h : b ≤ a) : checkedSub a b = .ok (a - b) := if_pos h

theorem checkedAdd_ok {a b : Nat} (h : a + b < 2 ^ 64) : checkedAdd a b = .ok (a + b) := if_pos h

theorem checkedSlice_ok {bytes : Bytes} {first last : Nat} (h : first ≤ last)
    (h' : last ≤ bytes.length) :
    checkedSlice bytes first last = .ok ((bytes.drop first).take (last - first)) :=
  if_pos ⟨h, h'⟩

/-- The length of a header and of what it announces: both are inside the slice. -/
theorem checked_header {bytes peek : Bytes} {n : Nat} (hlength : bytes.length < 2 ^ 64)
    (hd : Rlp.Header.decode bytes = .ok (⟨true, n⟩, peek)) :
    checkedSub bytes.length peek.length = .ok (bytes.length - peek.length) ∧
      checkedAdd (bytes.length - peek.length) n = .ok (bytes.length - peek.length + n) ∧
      bytes.length - peek.length + n ≤ bytes.length := by
  obtain ⟨rfl, hle, -⟩ := Rlp.Header.decode_eq_list hd
  rw [List.length_append] at hlength ⊢
  exact ⟨checkedSub_ok (by omega), checkedAdd_ok (by omega), by omega⟩

theorem readOuterChecked_eq {start : Bytes} (hlength : start.length < 2 ^ 64) :
    readOuterChecked start = .ok (readOuter start) := by
  unfold readOuterChecked readOuter
  cases hd : Rlp.Header.decode start with
  | error e => rfl
  | ok p =>
      obtain ⟨⟨list, n⟩, peek⟩ := p
      cases list with
      | false => rfl
      | true =>
          obtain ⟨hsub, hadd, -⟩ := checked_header hlength hd
          simp only [not_true, if_false, hsub, hadd, bind, Except.bind]
          split_ifs <;> rfl

theorem readHeaderChecked_eq {inner : Bytes} (hlength : inner.length < 2 ^ 64) :
    readHeaderChecked inner = .ok (readHeader inner) := by
  unfold readHeaderChecked readHeader
  cases hd : Rlp.Header.decode inner with
  | error e => rfl
  | ok p =>
      obtain ⟨⟨list, n⟩, peek⟩ := p
      cases list with
      | false => rfl
      | true =>
          obtain ⟨hsub, hadd, hle⟩ := checked_header hlength hd
          have hslice := checkedSlice_ok (Nat.zero_le _) hle
          simp only [not_true, if_false, hsub, hadd, hslice, bind, Except.bind]
          split_ifs <;> rfl

theorem readBlockChecked_eq {blockStart : Bytes} {remaining : Nat}
    (hlength : blockStart.length < 2 ^ 64) :
    readBlockChecked blockStart remaining = .ok (readBlock blockStart remaining) := by
  unfold readBlockChecked readBlock
  cases hd : Rlp.Header.decode blockStart with
  | error e => rfl
  | ok p =>
      obtain ⟨⟨list, n⟩, peek⟩ := p
      cases list with
      | false => rfl
      | true =>
          obtain ⟨hsub, hadd, hle⟩ := checked_header hlength hd
          have hslice := checkedSlice_ok (Nat.le_add_right (blockStart.length - peek.length) n) hle
          rw [Nat.add_sub_cancel_left] at hslice
          have hinner : ((blockStart.drop (blockStart.length - peek.length)).take n).length <
              2 ^ 64 := by
            rw [List.length_take, List.length_drop]
            omega
          simp only [not_true, if_false, hsub, hadd, hslice, readHeaderChecked_eq hinner, bind,
            Except.bind]
          split_ifs
          · rfl
          · cases readHeader ((blockStart.drop (blockStart.length - peek.length)).take n) <;> rfl

namespace BlockIter

variable {keccak : Bytes → B256}

theorem nextBlockChecked_eq {it : BlockIter} (hlength : it.cursor.length < 2 ^ 64) :
    it.nextBlockChecked keccak = .ok (it.nextBlock keccak) := by
  unfold nextBlockChecked nextBlock
  split_ifs
  · rfl
  · rw [readBlockChecked_eq hlength]
    cases hread : readBlock it.cursor it.remaining with
    | error e => rfl
    | ok p =>
        obtain ⟨headerBytes, blockTotal⟩ := p
        obtain ⟨entry, tail, hcursor, -, rfl, hle⟩ := readBlock_ok_iff.mp hread
        have hbounds : entry.encode.length ≤ it.cursor.length := by
          rw [hcursor, List.length_append]
          omega
        have hslice := checkedSlice_ok hbounds le_rfl
        have htake : (it.cursor.drop entry.encode.length).take
            (it.cursor.length - entry.encode.length) = it.cursor.drop entry.encode.length := by
          rw [← List.length_drop, List.take_length]
        rw [htake] at hslice
        simp only [hslice, checkedSub_ok hle, bind, Except.bind]
        rfl

theorem nextChecked_eq {it : BlockIter} (hlength : it.cursor.length < 2 ^ 64) :
    it.nextChecked keccak = .ok (it.next keccak) := by
  unfold nextChecked next
  split_ifs
  · rfl
  · exact nextBlockChecked_eq hlength
  · rfl
  · rw [readOuterChecked_eq hlength]
    cases hread : readOuter it.cursor with
    | error e => rfl
    | ok p =>
        obtain ⟨remaining, peek⟩ := p
        obtain ⟨-, hlt, -⟩ := readOuter_ok_iff.mp hread
        exact nextBlockChecked_eq hlt

end BlockIter

end NoPanic

/-! Runs of the iterator -/

namespace BlockIter

variable (keccak : Bytes → B256) (payload : Bytes)

/-- The iterator after some calls, also such that follow the end. -/
def after (n : Nat) : BlockIter := (fun it => (it.next keccak).2)^[n] (iterBlocks payload)

/-- What the call after those gives. -/
def answer (n : Nat) : Option (Except BlobError BlockView) :=
  ((after keccak payload n).next keccak).1

/-- The payload is one list, filled by the entries behind the blocks that were given. -/
def ExactList (items : List (Except BlobError BlockView)) : Prop :=
  ∃ entries : List Entry, (entries.flatMap Entry.encode).length < 2 ^ 64 ∧
    payload = payloadOf entries ∧ items = entries.map fun entry => .ok (entry.view keccak)

variable {keccak payload}

theorem after_succ (n : Nat) :
    after keccak payload (n + 1) = ((after keccak payload n).next keccak).2 :=
  Function.iterate_succ_apply' ..

theorem nextBlock_cursor_le (it : BlockIter) :
    (it.nextBlock keccak).2.cursor.length ≤ it.cursor.length := by
  unfold nextBlock
  split_ifs
  · exact le_rfl
  · split
    · exact le_rfl
    · simp

/-- The unread slice never grows. -/
theorem next_cursor_le (it : BlockIter) :
    (it.next keccak).2.cursor.length ≤ it.cursor.length := by
  unfold next
  split_ifs
  · exact le_rfl
  · exact nextBlock_cursor_le it
  · exact le_rfl
  · split
    · exact le_rfl
    · next remaining peek hread =>
        obtain ⟨-, -, hcursor⟩ := readOuter_ok_iff.mp hread
        refine (nextBlock_cursor_le _).trans ?_
        rw [hcursor, List.length_append]
        exact Nat.le_add_left _ _

theorem after_cursor_le (n : Nat) : (after keccak payload n).cursor.length ≤ payload.length := by
  induction n with
  | zero => exact le_rfl
  | succ n ih =>
      rw [after_succ]
      exact (next_cursor_le _).trans ih

/-- A call that gives no error leaves an opened iterator opened. -/
theorem exists_opened_next (body : Bytes)
    (h : ∀ e, ((opened body).next keccak).1 ≠ some (.error e)) :
    ∃ tail, ((opened body).next keccak).2 = opened tail := by
  rcases hn : (opened body).next keccak with ⟨answer, it'⟩
  rw [hn] at h
  cases answer with
  | none => exact ⟨[], (next_opened_none.mp hn).2⟩
  | some item =>
      cases item with
      | error e => exact absurd rfl (h e)
      | ok view =>
          obtain ⟨entry, tail, -, -, htail⟩ := next_opened_ok.mp hn
          exact ⟨tail, htail⟩

/-- The first call opens the outer list. -/
theorem exists_opened_first (h : ∀ e, ((iterBlocks payload).next keccak).1 ≠ some (.error e)) :
    ∃ body, ((iterBlocks payload).next keccak).2 = opened body := by
  by_cases hempty : payload = []
  · rw [hempty]
    exact ⟨[], rfl⟩
  · cases hread : readOuter payload with
    | error e =>
        refine absurd ?_ (h e)
        simp [next, iterBlocks, hempty, hread]
    | ok p =>
        obtain ⟨n, body⟩ := p
        obtain ⟨-, hlt, hpayload⟩ := readOuter_ok_iff.mp hread
        rw [next_iterBlocks hlt hpayload] at h ⊢
        exact exists_opened_next body h

/-- As long as no call gave an error, the iterator is at the rest of an outer list. -/
theorem exists_opened_after {n : Nat}
    (h : ∀ m ≤ n, ∀ e, answer keccak payload m ≠ some (.error e)) :
    ∃ body, after keccak payload (n + 1) = opened body := by
  induction n with
  | zero =>
      rw [after_succ]
      exact exists_opened_first (h 0 le_rfl)
  | succ n ih =>
      obtain ⟨body, hbody⟩ := ih fun m hm => h m (by omega)
      have hlast := h (n + 1) le_rfl
      rw [answer, hbody] at hlast
      rw [after_succ, hbody]
      exact exists_opened_next body hlast

theorem done_after {m n : Nat} {e : BlobError} (hm : answer keccak payload m = some (.error e))
    (hmn : m < n) : (after keccak payload n).done = true := by
  induction n, hmn using Nat.le_induction with
  | base =>
      rw [after_succ]
      have hnext : (after keccak payload m).next keccak =
          (some (.error e), ((after keccak payload m).next keccak).2) := Prod.ext hm rfl
      obtain ⟨-, ⟨-, hdone⟩ | ⟨⟨view, hview⟩, -⟩⟩ := next_gives hnext
      · exact hdone
      · cases hview
  | succ n _ ih => rw [after_succ, next_of_done _ ih]; exact ih

theorem exactList_of_yields {items : List (Except BlobError BlockView)}
    (h : Pull.Yields (next keccak) (iterBlocks payload) items)
    (hok : ∀ item ∈ items, ∃ view, item = .ok view) :
    payload = [] ∧ items = [] ∨ ExactList keccak payload items := by
  obtain ⟨views, rfl | ⟨e, rfl⟩⟩ := yields_blocks h
  · rcases yields_iterBlocks.mp h with ⟨hempty, rfl⟩ | ⟨entries, hlt, hpayload, rfl⟩
    · exact .inl ⟨hempty, rfl⟩
    · exact .inr ⟨entries, hlt, hpayload, by rw [List.map_map]; rfl⟩
  · obtain ⟨view, hview⟩ := hok (.error e) (by simp)
    cases hview

end BlockIter

open BlockIter

/-- The iterator on any payload: it ends, no call stops the program, the counter is the length
of what is unread, an error is the last item, and blocks without an error are the entries of
one list or of an empty payload. -/
theorem block_iterator_safe (keccak : Bytes → B256) (payload : Bytes)
    (hlength : payload.length < 2 ^ 64) :
    (∃ items, Pull.Yields (next keccak) (iterBlocks payload) items ∧
      items.length ≤ payload.length + 1 ∧
      ((∀ item ∈ items, ∃ view, item = .ok view) →
        payload = [] ∧ items = [] ∨ ExactList keccak payload items)) ∧
    (∀ n, (after keccak payload n).nextChecked keccak =
      .ok (answer keccak payload n, after keccak payload (n + 1))) ∧
    (∀ n, (∀ m ≤ n, ∀ e, answer keccak payload m ≠ some (.error e)) →
      (after keccak payload (n + 1)).remaining = (after keccak payload (n + 1)).cursor.length) ∧
    ∀ m n e, answer keccak payload m = some (.error e) → m < n →
      answer keccak payload n = none := by
  refine ⟨?_, ?_, ?_, ?_⟩
  · obtain ⟨items, hyields, hcount⟩ := exists_yields keccak payload
    exact ⟨items, hyields, hcount, exactList_of_yields hyields⟩
  · intro n
    rw [nextChecked_eq ((after_cursor_le n).trans_lt hlength), after_succ]
    rfl
  · intro n h
    obtain ⟨body, hbody⟩ := exists_opened_after h
    rw [hbody]
    rfl
  · intro m n e hm hmn
    rw [answer, next_of_done _ (done_after hm hmn)]

/-- The hash of the empty list. -/
def listKeccak : Bytes → B256 :=
  tableHash [([0xc0], .ofNat 0x1dcc4de8dec75d7aab85b567b6ccd41ad312451b948a7413f0a142fd40d49347)]

/-- A payload with one block, whose header is the empty list. -/
theorem block_iterator_safe_sample :
    (∃ items, Pull.Yields (next listKeccak) (iterBlocks [0xc2, 0xc1, 0xc0]) items ∧
      items.length ≤ 4) ∧
    (after listKeccak [0xc2, 0xc1, 0xc0] 1).remaining =
      (after listKeccak [0xc2, 0xc1, 0xc0] 1).cursor.length := by
  obtain ⟨⟨items, hyields, hcount, -⟩, -, hremaining, -⟩ :=
    block_iterator_safe listKeccak [0xc2, 0xc1, 0xc0] (by decide)
  refine ⟨⟨items, hyields, hcount⟩, hremaining 0 ?_⟩
  intro m hm e
  obtain rfl := Nat.le_zero.mp hm
  obtain ⟨block, hanswer⟩ : ∃ block, answer listKeccak [0xc2, 0xc1, 0xc0] 0 = some (.ok block) :=
    ⟨_, rfl⟩
  rw [hanswer]
  simp

/-- The empty payload gives no item and no error, and is no list. -/
theorem empty_payload_is_no_list :
    Pull.Yields (next listKeccak) (iterBlocks []) [] ∧ ¬ExactList listKeccak [] [] := by
  refine ⟨.stop rfl, ?_⟩
  rintro ⟨entries, hlt, hpayload, -⟩
  obtain ⟨code, tail, hcode, -⟩ := Rlp.Header.encode_head
    ⟨true, (entries.flatMap Entry.encode).length⟩ hlt
  rw [payloadOf, hcode] at hpayload
  cases hpayload

end FluentStf.Blob
