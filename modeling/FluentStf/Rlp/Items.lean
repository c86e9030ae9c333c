import FluentStf.Rlp.Decoding

/-! Lists of items read back from their bytes, without looking into the items, and the
length of what an encoder writes. -/
namespace Rlp

/-- The number of bytes of a header. -/
def lengthOfLength (payloadLength : Nat) : Nat :=
  if payloadLength < 56 then 1 else 1 + (toBigEndian payloadLength).length

/-- The number of bytes of a string with its header. -/
def bytesLength : List UInt8 → Nat
  | [b] => if b < 0x80 then 1 else 1 + lengthOfLength 1
  | bytes => bytes.length + lengthOfLength bytes.length

theorem Header.encode_length (h : Header) : h.encode.length = lengthOfLength h.payloadLength := by
  unfold Header.encode lengthOfLength
  split
  · rfl
  · rw [List.length_cons, Nat.add_comm]

theorem encodeBytes_length (bytes : List UInt8) :
    (encodeBytes bytes).length = bytesLength bytes := by
  match bytes with
  | [] => rfl
  | [b] =>
      simp only [encodeBytes, bytesLength]
      split
      · rfl
      · rw [List.length_append, Header.encode_length, List.length_singleton, Nat.add_comm]
  | a :: b :: rest =>
      rw [encodeBytes, List.length_append, Header.encode_length, bytesLength, Nat.add_comm]
      · simp
      · simp

theorem encodeList_length (items : List (List UInt8)) :
    (encodeList items).length = items.flatten.length + lengthOfLength items.flatten.length := by
  rw [encodeList, List.length_append, Header.encode_length, Nat.add_comm]

theorem lengthOfLength_mono {m n : Nat} (h : m ≤ n) : lengthOfLength m ≤ lengthOfLength n := by
  have hdigits : (toBigEndian m).length ≤ (toBigEndian n).length :=
    toBigEndian_length_le m _ (Nat.lt_of_le_of_lt h (lt_of_toBigEndian_length_le le_rfl))
  rw [lengthOfLength, lengthOfLength]
  split_ifs <;> omega

/-- Equal lists have equal payloads. -/
theorem flatten_eq_of_encodeList {as bs : List (List UInt8)} (h : encodeList as = encodeList bs) :
    as.flatten = bs.flatten := by
  have hlength := congrArg List.length h
  rw [encodeList_length, encodeList_length] at hlength
  have hpayload : as.flatten.length = bs.flatten.length := by
    rcases Nat.le_total as.flatten.length bs.flatten.length with hle | hle
    · have := lengthOfLength_mono hle
      omega
    · have := lengthOfLength_mono hle
      omega
  rw [encodeList, encodeList, hpayload] at h
  exact List.append_cancel_left h

/-- Cut the first item off, with its header. -/
def splitItem (buf : List UInt8) : Except DecodeError (List UInt8 × List UInt8) :=
  match Header.decode buf with
  | .error e => .error e
  | .ok (h, rest) =>
      .ok (buf.take (buf.length - rest.length + h.payloadLength), rest.drop h.payloadLength)

/-- All items of a payload. Each has at least one byte, so as many steps as there are bytes
are enough. -/
def splitItems : (steps : Nat) → List UInt8 → Except DecodeError (List (List UInt8))
  | _, [] => .ok []
  | 0, _ => .error .InputTooShort
  | steps + 1, buf => match splitItem buf with
    | .error e => .error e
    | .ok (item, rest) => match splitItems steps rest with
      | .error e => .error e
      | .ok items => .ok (item :: items)

/-- The items of a list, each still encoded. -/
def listItems (buf : List UInt8) : Except DecodeError (List (List UInt8)) :=
  match Header.decode buf with
  | .error e => .error e
  | .ok (h, rest) =>
      if h.list then splitItems h.payloadLength (rest.take h.payloadLength)
      else .error .UnexpectedString

theorem splitItem_bounds {buf item rest : List UInt8} (h : splitItem buf = .ok (item, rest)) :
    item.length ≤ buf.length ∧ rest.length ≤ buf.length := by
  rw [splitItem] at h
  cases hdecode : Header.decode buf with
  | error e => simp [hdecode] at h
  | ok result =>
      obtain ⟨header, behind⟩ := result
      obtain ⟨hpayload, hbehind⟩ := Header.decode_bounds hdecode
      simp only [hdecode, Except.ok.injEq, Prod.mk.injEq] at h
      obtain ⟨rfl, rfl⟩ := h
      rw [List.length_take, List.length_drop]
      omega

variable {items : List (List UInt8)}

theorem length_le_of_mem_splitItems {steps : Nat} {buf : List UInt8}
    (h : splitItems steps buf = .ok items) : ∀ item ∈ items, item.length ≤ buf.length := by
  induction steps generalizing buf items with
  | zero =>
      cases buf with
      | nil =>
          cases h
          simp
      | cons b buf => cases h
  | succ steps ih =>
      cases buf with
      | nil =>
          cases h
          simp
      | cons b buf =>
          rw [splitItems] at h
          · split at h
            · cases h
            · next first rest hfirst =>
                obtain ⟨hitem, hrest⟩ := splitItem_bounds hfirst
                split at h
                · cases h
                · next items' hitems =>
                    cases h
                    intro item hmem
                    rcases List.mem_cons.mp hmem with rfl | hmem
                    · exact hitem
                    · exact (ih hitems item hmem).trans hrest
          · simp

/-- The items of a list are shorter than the list with its header. -/
theorem length_lt_of_mem_listItems {buf : List UInt8} (h : listItems buf = .ok items) :
    ∀ item ∈ items, item.length < buf.length := by
  rw [listItems] at h
  cases hdecode : Header.decode buf with
  | error e => simp [hdecode] at h
  | ok result =>
      obtain ⟨⟨list, n⟩, rest⟩ := result
      simp only [hdecode] at h
      split_ifs at h with hlist
      obtain rfl : list = true := hlist
      obtain ⟨hbuf, hn, -⟩ := Header.decode_eq_list hdecode
      have hheader : 0 < (Header.encode ⟨true, n⟩).length := by
        rw [Header.encode_length, lengthOfLength]
        split <;> omega
      have hlength := congrArg List.length hbuf
      rw [List.length_append] at hlength
      intro item hitem
      have hle := length_le_of_mem_splitItems h item hitem
      rw [List.length_take] at hle
      omega

/-- An item that is cut off from whatever follows it. -/
def Splits (item : List UInt8) : Prop :=
  item ≠ [] ∧ ∀ rest, splitItem (item ++ rest) = .ok (item, rest)

theorem splits_of_header {item payload : List UInt8} {h : Header}
    (hitem : item ≠ []) (hlength : payload.length = h.payloadLength)
    (hle : payload.length ≤ item.length)
    (hdecode : ∀ rest, Header.decode (item ++ rest) = .ok (h, payload ++ rest)) :
    Splits item := by
  refine ⟨hitem, fun rest => ?_⟩
  have htake : (item ++ rest).length - (payload ++ rest).length + h.payloadLength =
      item.length := by
    rw [List.length_append, List.length_append, ← hlength]
    omega
  simp only [splitItem, hdecode]
  rw [htake, List.take_left, ← hlength, List.drop_left]

theorem splits_encodeBytes {bytes : List UInt8} (h : bytes.length < 2 ^ 64) :
    Splits (encodeBytes bytes) :=
  @splits_of_header _ bytes ⟨false, bytes.length⟩ (encodeBytes_isItem bytes h).ne_nil rfl
    (length_le_encodeBytes bytes) (Header.decode_encodeBytes h)

theorem splits_encodeList (h : items.flatten.length < 2 ^ 64) :
    Splits (encodeList items) := by
  refine @splits_of_header _ items.flatten ⟨true, items.flatten.length⟩
    (encodeList_isItem h).ne_nil rfl (flatten_length_le_encodeList items) fun rest => ?_
  rw [encodeList, List.append_assoc]
  exact Header.decode_list h (by simp)

theorem splitItems_flatten (hitems : ∀ item ∈ items, Splits item) {steps : Nat}
    (hsteps : items.flatten.length ≤ steps) :
    splitItems steps items.flatten = .ok items := by
  induction items generalizing steps with
  | nil => simp [splitItems]
  | cons item items ih =>
      obtain ⟨hne, hsplit⟩ := hitems item (.head _)
      have hpos : 0 < item.length := List.length_pos_iff.mpr hne
      rw [List.flatten_cons, List.length_append] at hsteps
      cases steps with
      | zero => omega
      | succ steps =>
          have hrest := @ih (fun other h => hitems other (.tail _ h)) steps (by omega)
          obtain ⟨b, tail, rfl⟩ := List.exists_cons_of_ne_nil hne
          rw [List.flatten_cons, List.cons_append, splitItems, ← List.cons_append, hsplit]
          · simp only [hrest]
          · simp

/-- A list is read back item by item. -/
theorem listItems_encodeList (h : items.flatten.length < 2 ^ 64)
    (hitems : ∀ item ∈ items, Splits item) : listItems (encodeList items) = .ok items := by
  rw [listItems, encodeList, Header.decode_list h le_rfl]
  simp only [if_true]
  rw [List.take_of_length_le le_rfl]
  exact splitItems_flatten hitems le_rfl

end Rlp
