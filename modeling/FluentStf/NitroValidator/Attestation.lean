import FluentStf.NitroValidator.CborSkip

/-! The attestation document: a map in which the validator looks for `pcrs[0]`, the user data
and the timestamp. -/
namespace FluentStf.NitroValidator

open Cbor CborWalker

/-- The text `pcrs`. -/
def pcrsKey : Bytes := [0x70, 0x63, 0x72, 0x73]

/-- The text `user_data`. -/
def userDataKey : Bytes := [0x75, 0x73, 0x65, 0x72, 0x5f, 0x64, 0x61, 0x74, 0x61]

/-- The text `timestamp`. -/
def timestampKey : Bytes := [0x74, 0x69, 0x6d, 0x65, 0x73, 0x74, 0x61, 0x6d, 0x70]

/-- What the walk has come across so far. -/
structure Fields where
  pcr0 : Option Bytes := none
  userData : Option Bytes := none
  timestampMs : Option Nat := none

def pcrEntry (fields : Fields) : Reader Fields := do
  let idx ← expectUint
  let val ← expectBstrNotNull "pcr value must be bstr"
  if idx = 0 then
    Reader.check (fields.pcr0 = none) "duplicate pcr0"
    return { fields with pcr0 := some val }
  else
    return fields

/-- The value behind a key. -/
def docValue (fields : Fields) (key : Bytes) : Reader Fields :=
  if key = pcrsKey then
    expectEntries pcrEntry fields
  else if key = userDataKey then do
    let v ← expectBstrNotNull "user_data must not be null"
    Reader.check (fields.userData = none) "duplicate user_data"
    return { fields with userData := some v }
  else if key = timestampKey then do
    let v ← expectUint
    Reader.check (fields.timestampMs = none) "duplicate timestamp"
    return { fields with timestampMs := some v }
  else do
    skipItem
    return fields

def docEntry (fields : Fields) : Reader Fields := do
  let key ← expectTstr
  docValue fields key

def attestationDoc : Reader (Bytes × Bytes × Nat) := do
  let fields ← expectEntries docEntry {}
  let pcr0 ← Reader.expectSome "attestation doc missing pcrs[0]" fields.pcr0
  let userData ← Reader.expectSome "attestation doc missing user_data" fields.userData
  let timestampMs ← Reader.expectSome "attestation doc missing timestamp" fields.timestampMs
  return (pcr0, userData, timestampMs)

/-- `(pcr0, user_data, timestamp_ms)`; bytes behind the map are not looked at. -/
def parseAttestationDoc (payload : Bytes) : Except String (Bytes × Bytes × Nat) := do
  let (found, _) ← attestationDoc ⟨0, payload⟩
  return found

/-! What an entry contributes -/

/-- Every value met for each of the three fields, in order. -/
@[ext] structure Found where
  pcr0s : List Bytes
  userDatas : List Bytes
  timestamps : List Nat

namespace Found

instance : Append Found :=
  ⟨fun a b => ⟨a.pcr0s ++ b.pcr0s, a.userDatas ++ b.userDatas, a.timestamps ++ b.timestamps⟩⟩

theorem append_def (a b : Found) :
    a ++ b = ⟨a.pcr0s ++ b.pcr0s, a.userDatas ++ b.userDatas, a.timestamps ++ b.timestamps⟩ := rfl

theorem append_assoc (a b c : Found) : a ++ b ++ c = a ++ (b ++ c) := by
  simp only [append_def, List.append_assoc]

/-- All that a list of entries contributes. -/
def collect {ε : Type} (f : ε → Found) (es : List ε) : Found :=
  ⟨es.flatMap fun e => (f e).pcr0s, es.flatMap fun e => (f e).userDatas,
    es.flatMap fun e => (f e).timestamps⟩

theorem collect_cons {ε : Type} (f : ε → Found) (e : ε) (es : List ε) :
    collect f (e :: es) = f e ++ collect f es := rfl

end Found

def Fields.found (fields : Fields) : Found :=
  ⟨fields.pcr0.toList, fields.userData.toList, fields.timestampMs.toList⟩

/-- One register: only the one with index 0 is kept. -/
def pcrFound (value : Nat × Bytes) : Found :=
  if value.1 = 0 then ⟨[value.2], [], []⟩ else ⟨[], [], []⟩

/-- What an entry of the document means to the validator. -/
inductive Entry where
  | pcrs (values : List (Nat × Bytes))
  | userData (content : Bytes)
  | timestamp (n : Nat)
  | other (name : Bytes)

def Entry.found : Entry → Found
  | .pcrs values => .collect pcrFound values
  | .userData content => ⟨[], [content], []⟩
  | .timestamp n => ⟨[], [], [n]⟩
  | .other _ => ⟨[], [], []⟩

def PcrBytes (value : Nat × Bytes) (bytes : Bytes) : Prop :=
  ∃ a b, bytes = a ++ b ∧ IsHead 0 value.1 a ∧ IsString 2 value.2 b

/-- The value behind a key. Any item may stand behind a key that the validator does not look
for, and no more than that item is stepped over. -/
inductive ValueBytes (key : Bytes) : Entry → Bytes → Prop
  | pcrs {value : Bytes} {values : List (Nat × Bytes)} {parts : List Bytes} (hkey : key = pcrsKey)
      (hvalues : List.Forall₂ PcrBytes values parts)
      (hframe : Framed 5 parts.length parts.flatten value) : ValueBytes key (.pcrs values) value
  | userData {value content : Bytes} (hkey : key = userDataKey)
      (hvalue : IsString 2 content value) : ValueBytes key (.userData content) value
  | timestamp {value : Bytes} {n : Nat} (hkey : key = timestampKey) (hvalue : IsHead 0 n value) :
      ValueBytes key (.timestamp n) value
  | other {value : Bytes} (hname : key ∉ [pcrsKey, userDataKey, timestampKey])
      (hvalue : Skipped value) : ValueBytes key (.other key) value

def EntryBytes (entry : Entry) (bytes : Bytes) : Prop :=
  ∃ name key value, bytes = key ++ value ∧ IsString 3 name key ∧ ValueBytes name entry value

/-- A map whose entries give each of the three fields exactly once. -/
def DocBytes (doc : Bytes × Bytes × Nat) (bytes : Bytes) : Prop :=
  ∃ entries parts, List.Forall₂ EntryBytes entries parts ∧
    Framed 5 parts.length parts.flatten bytes ∧
    Found.collect Entry.found entries = ⟨[doc.1], [doc.2.1], [doc.2.2]⟩

section Loops

variable {α ε : Type} {R : ε → Bytes → Prop} {f : ε → Found} {s t : Fields}

theorem option_toList_inj {o o' : Option α} : o.toList = o'.toList ↔ o = o' := by
  cases o with
  | none => cases o' <;> simp
  | some y => cases o' <;> simp

theorem toList_eq_append_singleton {o o' : Option α} {x : α} :
    o'.toList = o.toList ++ [x] ↔ o = none ∧ o' = some x := by
  cases o with
  | none => cases o' <;> simp
  | some y => cases o' <;> simp

theorem exists_option_between {o o' : Option α} {a b : List α}
    (h : o'.toList = o.toList ++ (a ++ b)) :
    ∃ m : Option α, m.toList = o.toList ++ a ∧ o'.toList = m.toList ++ b := by
  rw [← List.append_assoc] at h
  have hlength : (o.toList ++ a).length ≤ 1 := by
    have hle := congrArg List.length h
    rw [List.length_append] at hle
    have : o'.toList.length ≤ 1 := by cases o' <;> simp
    omega
  cases hm : o.toList ++ a with
  | nil => exact ⟨none, rfl, by rw [h, hm]; rfl⟩
  | cons x rest =>
      rw [hm, List.length_cons] at hlength
      obtain rfl := List.length_eq_zero_iff.mp (Nat.le_zero.mp (Nat.le_of_succ_le_succ hlength))
      exact ⟨some x, rfl, by rw [h, hm]; rfl⟩

/-- Between two entries each field has been met at most once. -/
theorem exists_fields_between {a b : Found} (h : t.found = s.found ++ (a ++ b)) :
    ∃ u : Fields, u.found = s.found ++ a ∧ t.found = u.found ++ b := by
  simp only [Found.append_def, Fields.found, Found.mk.injEq] at h
  obtain ⟨hpcr0, huserData, htimestamp⟩ := h
  obtain ⟨pcr0, hp, hp'⟩ := exists_option_between hpcr0
  obtain ⟨userData, hu, hu'⟩ := exists_option_between huserData
  obtain ⟨timestampMs, ht, ht'⟩ := exists_option_between htimestamp
  refine ⟨⟨pcr0, userData, timestampMs⟩, ?_, ?_⟩
  · simp only [Found.append_def, Fields.found, hp, hu, ht]
  · simp only [Found.append_def, Fields.found, hp', hu', ht']

theorem found_inj (h : t.found = s.found) : t = s := by
  simp only [Fields.found, Found.mk.injEq, option_toList_inj] at h
  cases s
  cases t
  simp_all

/-- A loop whose body adds what one entry contributes. -/
theorem parts_collect_iff {parts : List Bytes} :
    Parts (fun s t bytes => ∃ e, R e bytes ∧ t.found = s.found ++ f e) s parts t ↔
      ∃ es, List.Forall₂ R es parts ∧ t.found = s.found ++ .collect f es := by
  constructor
  · intro h
    induction h with
    | nil s => exact ⟨[], .nil, by simp [Found.append_def, Found.collect]⟩
    | cons head _ ih =>
        obtain ⟨e, hR, hfound⟩ := head
        obtain ⟨es, hRs, hfounds⟩ := ih
        refine ⟨e :: es, .cons hR hRs, ?_⟩
        rw [hfounds, hfound, Found.collect_cons, Found.append_assoc]
  · rintro ⟨es, hRs, hfounds⟩
    induction hRs generalizing s with
    | nil =>
        have hsame : t.found = s.found := by simpa [Found.append_def, Found.collect] using hfounds
        rw [found_inj hsame]
        exact .nil _
    | cons hR _ ih =>
        rw [Found.collect_cons] at hfounds
        obtain ⟨u, hu, hrest⟩ := exists_fields_between hfounds
        exact .cons ⟨_, hR, hu⟩ (ih hrest)

end Loops

/-! The readers of one entry -/

section Entries

variable {fields t : Fields}

theorem found_eq_pcr0_iff {val : Bytes} : t.found = fields.found ++ ⟨[val], [], []⟩ ↔
    fields.pcr0 = none ∧ t = { fields with pcr0 := some val } := by
  cases t
  simp only [Fields.found, Found.append_def, List.append_nil, Found.mk.injEq, Fields.mk.injEq,
    toList_eq_append_singleton, option_toList_inj, and_assoc]

theorem found_eq_userData_iff {val : Bytes} : t.found = fields.found ++ ⟨[], [val], []⟩ ↔
    fields.userData = none ∧ t = { fields with userData := some val } := by
  cases t
  simp only [Fields.found, Found.append_def, List.append_nil, Found.mk.injEq, Fields.mk.injEq,
    toList_eq_append_singleton, option_toList_inj]
  tauto

theorem found_eq_timestamp_iff {val : Nat} : t.found = fields.found ++ ⟨[], [], [val]⟩ ↔
    fields.timestampMs = none ∧ t = { fields with timestampMs := some val } := by
  cases t
  simp only [Fields.found, Found.append_def, List.append_nil, Found.mk.injEq, Fields.mk.injEq,
    toList_eq_append_singleton, option_toList_inj]
  tauto

theorem found_eq_nil_iff : t.found = fields.found ++ ⟨[], [], []⟩ ↔ t = fields := by
  constructor
  · intro h
    exact found_inj (by simpa [Found.append_def] using h)
  · rintro rfl
    simp [Found.append_def]

/-- A value is kept if the field was not met before. -/
theorem recognises_keep {p : Prop} [Decidable p] {u : Fields} {message : String} :
    Recognises (do Reader.check p message; return u : Reader Fields)
      (fun t bytes => (p ∧ t = u) ∧ bytes = []) := by
  refine (Reads.check_bind fun _ => Reads.pure u).mono ?_ ?_
  · rintro t bytes ⟨⟨hp, rfl⟩, rfl⟩
    exact ⟨hp, rfl, rfl⟩
  · rintro t bytes ⟨hp, rfl, rfl⟩
    exact ⟨⟨hp, rfl⟩, rfl⟩

theorem recognises_pcrEntry (fields : Fields) : Recognises (pcrEntry fields)
    (fun t bytes => ∃ value, PcrBytes value bytes ∧ t.found = fields.found ++ pcrFound value) := by
  have hkeep : ∀ (idx : Nat) (val : Bytes), Recognises (if idx = 0 then do
        Reader.check (fields.pcr0 = none) "duplicate pcr0"
        return { fields with pcr0 := some val }
      else return fields)
      (fun t bytes => t.found = fields.found ++ pcrFound (idx, val) ∧ bytes = []) := by
    intro idx val
    unfold pcrFound
    split
    · simp only [found_eq_pcr0_iff]
      exact recognises_keep
    · simp only [found_eq_nil_iff]
      exact Reads.pure fields
  refine (recognises_expectUint.bind fun idx =>
    (recognises_expectBstrNotNull _).bind fun val => hkeep idx val).mono ?_ ?_
  · rintro t bytes ⟨⟨idx, val⟩, ⟨a, b, rfl, ha, hb⟩, hfound⟩
    exact ⟨idx, a, b, rfl, ha, val, b, [], (List.append_nil _).symm, hb, hfound, rfl⟩
  · rintro t bytes ⟨idx, a, _, rfl, ha, val, b, _, rfl, hb, hfound, rfl⟩
    rw [List.append_nil]
    exact ⟨(idx, val), ⟨a, b, rfl, ha, hb⟩, hfound⟩

theorem delimited_pcrs : Delimited (fun (s t : Fields) bytes =>
    ∃ value, PcrBytes value bytes ∧ t.found = s.found ++ pcrFound value) breakByte := by
  rintro s t bytes ⟨value, ⟨a, b, rfl, ha, -⟩, -⟩
  obtain ⟨byte, rest, rfl, hne⟩ := ha.delimited (by decide)
  exact ⟨byte, rest ++ b, rfl, hne⟩

/-- The reader behind a key takes that key's value. -/
theorem recognises_docValue (fields : Fields) (key : Bytes) : Recognises (docValue fields key)
    (fun t bytes => ∃ e, ValueBytes key e bytes ∧ t.found = fields.found ++ e.found) := by
  unfold docValue
  split
  · next hkey =>
      refine (recognises_expectEntries recognises_pcrEntry delimited_pcrs fields).mono ?_ ?_
      · rintro t bytes ⟨e, hvalue, hfound⟩
        cases hvalue with
        | pcrs _ hvalues hframe => exact ⟨_, hframe, parts_collect_iff.mpr ⟨_, hvalues, hfound⟩⟩
        | userData hkey' => exact absurd (hkey.symm.trans hkey') (by decide)
        | timestamp hkey' => exact absurd (hkey.symm.trans hkey') (by decide)
        | other hname => exact absurd hname (by simp [hkey])
      · rintro t bytes ⟨parts, hframe, hparts⟩
        obtain ⟨values, hvalues, hfound⟩ := parts_collect_iff.mp hparts
        exact ⟨.pcrs values, .pcrs hkey hvalues hframe, hfound⟩
  split
  · next hpcrs hkey =>
      refine ((recognises_expectBstrNotNull _).bind fun v => recognises_keep).mono ?_ ?_
      · rintro t bytes ⟨e, hvalue, hfound⟩
        cases hvalue with
        | pcrs hkey' => exact absurd hkey' hpcrs
        | userData _ hvalue =>
            exact ⟨_, bytes, [], (List.append_nil _).symm, hvalue,
              found_eq_userData_iff.mp hfound, rfl⟩
        | timestamp hkey' => exact absurd (hkey.symm.trans hkey') (by decide)
        | other hname => exact absurd hname (by simp [hkey])
      · rintro t bytes ⟨content, value, _, rfl, hvalue, hkeep, rfl⟩
        rw [List.append_nil]
        exact ⟨.userData content, .userData hkey hvalue, found_eq_userData_iff.mpr hkeep⟩
  split
  · next hpcrs huser hkey =>
      refine (recognises_expectUint.bind fun v => recognises_keep).mono ?_ ?_
      · rintro t bytes ⟨e, hvalue, hfound⟩
        cases hvalue with
        | pcrs hkey' => exact absurd hkey' hpcrs
        | userData hkey' => exact absurd hkey' huser
        | timestamp _ hvalue =>
            exact ⟨_, bytes, [], (List.append_nil _).symm, hvalue,
              found_eq_timestamp_iff.mp hfound, rfl⟩
        | other hname => exact absurd hname (by simp [hkey])
      · rintro t bytes ⟨n, value, _, rfl, hvalue, hkeep, rfl⟩
        rw [List.append_nil]
        exact ⟨.timestamp n, .timestamp hkey hvalue, found_eq_timestamp_iff.mpr hkeep⟩
  · next hpcrs huser htime =>
      refine (recognises_skipItem.map).mono ?_ ?_
      · rintro t bytes ⟨e, hvalue, hfound⟩
        cases hvalue with
        | pcrs hkey => exact absurd hkey hpcrs
        | userData hkey => exact absurd hkey huser
        | timestamp hkey => exact absurd hkey htime
        | other _ hvalue => exact ⟨(), found_eq_nil_iff.mp hfound, hvalue⟩
      · rintro t bytes ⟨_, rfl, hvalue⟩
        exact ⟨.other key, .other (by simp [hpcrs, huser, htime]) hvalue, found_eq_nil_iff.mpr rfl⟩

theorem recognises_docEntry (fields : Fields) : Recognises (docEntry fields)
    (fun t bytes => ∃ e, EntryBytes e bytes ∧ t.found = fields.found ++ e.found) := by
  refine (recognises_expectTstr.bind fun key => recognises_docValue fields key).mono ?_ ?_
  · rintro t bytes ⟨e, ⟨name, key, value, rfl, hkey, hvalue⟩, hfound⟩
    exact ⟨name, key, value, rfl, hkey, e, hvalue, hfound⟩
  · rintro t bytes ⟨name, key, value, rfl, hkey, e, hvalue, hfound⟩
    exact ⟨e, ⟨name, key, value, rfl, hkey, hvalue⟩, hfound⟩

theorem delimited_entries : Delimited (fun (s t : Fields) bytes =>
    ∃ e, EntryBytes e bytes ∧ t.found = s.found ++ e.found) breakByte := by
  rintro s t bytes ⟨e, ⟨name, key, value, rfl, hkey, -⟩, -⟩
  obtain ⟨info, rest, rfl, hinfo⟩ := hkey.eq_cons
  exact ⟨_, rest ++ value, rfl, initialByte_ne_break (by decide) hinfo (.inl (by decide))⟩

theorem recognises_attestationDoc : Recognises attestationDoc DocBytes := by
  refine ((recognises_expectEntries recognises_docEntry delimited_entries {}).bind fun fields =>
    (Reads.expectSome fields.pcr0).bind fun pcr0 => (Reads.expectSome fields.userData).bind
      fun userData => (Reads.expectSome fields.timestampMs).map).mono ?_ ?_
  · rintro ⟨pcr0, userData, timestampMs⟩ bytes ⟨entries, parts, hentries, hframe, hfound⟩
    refine ⟨⟨some pcr0, some userData, some timestampMs⟩, bytes, [], (List.append_nil _).symm,
      ⟨parts, hframe, parts_collect_iff.mpr ⟨entries, hentries, ?_⟩⟩, pcr0, [], [], rfl, ⟨rfl, rfl⟩,
      userData, [], [], rfl, ⟨rfl, rfl⟩, timestampMs, rfl, rfl, rfl⟩
    rw [hfound]
    rfl
  · rintro doc bytes ⟨fields, bytes', _, rfl, ⟨parts, hframe, hparts⟩, pcr0, _, _, rfl,
      ⟨hpcr0, rfl⟩, userData, _, _, rfl, ⟨huserData, rfl⟩, timestampMs, rfl, htimestamp, rfl⟩
    obtain ⟨entries, hentries, hfound⟩ := parts_collect_iff.mp hparts
    simp only [List.append_nil]
    refine ⟨entries, parts, hentries, hframe, ?_⟩
    rw [Fields.found, hpcr0, huserData, htimestamp] at hfound
    exact hfound.symm

end Entries

section Document

variable {doc : Bytes × Bytes × Nat} {payload taken trailing : Bytes}

theorem parseAttestationDoc_sound (h : parseAttestationDoc payload = .ok doc) :
    ∃ taken trailing, payload = taken ++ trailing ∧ DocBytes doc taken := by
  obtain ⟨⟨doc', c⟩, hread, hdoc⟩ := bind_eq_ok.mp h
  cases hdoc
  obtain ⟨taken, hpayload, hbytes⟩ := recognises_attestationDoc.run_sound hread
  exact ⟨taken, c.rest, hpayload, hbytes⟩

theorem parseAttestationDoc_complete (hdoc : DocBytes doc taken)
    (hlength : (taken ++ trailing).length < 2 ^ 64) :
    parseAttestationDoc (taken ++ trailing) = .ok doc :=
  bind_eq_ok.mpr ⟨_, recognises_attestationDoc.run_complete hdoc hlength, rfl⟩

/-- A map with text keys in which the registers, the user data and the timestamp occur once
each, and the registers have one with index 0. The other values are any items. -/
structure IsAttestation (entries : List (Bytes × Item)) (values : List (Nat × Bytes))
    (pcr0 userData : Bytes) (timestamp : Nat) : Prop where
  pcrs : entries.filter (·.1 = pcrsKey) =
    [(pcrsKey, .map (values.map fun value => (.uint value.1, .bytes value.2)))]
  pcr0 : values.filter (·.1 = 0) = [(0, pcr0)]
  userData : entries.filter (·.1 = userDataKey) = [(userDataKey, .bytes userData)]
  timestamp : entries.filter (·.1 = timestampKey) = [(timestampKey, .uint timestamp)]

/-- The entry that the walker makes of a key. -/
def entryOf (values : List (Nat × Bytes)) (userData : Bytes) (timestamp : Nat) (key : Bytes) :
    Entry :=
  if key = pcrsKey then .pcrs values
  else if key = userDataKey then .userData userData
  else if key = timestampKey then .timestamp timestamp
  else .other key

variable {entries : List (Bytes × Item)} {values : List (Nat × Bytes)} {pcr0 userData : Bytes}
  {timestamp : Nat}

theorem pcrs_encoded {bytes : Bytes}
    (h : Encodes (.map (values.map fun value => (.uint value.1, .bytes value.2))) bytes) :
    ∃ parts, List.Forall₂ PcrBytes values parts ∧ Framed 5 parts.length parts.flatten bytes := by
  obtain ⟨parts, hparts, hframe⟩ := h.map_entries
  refine ⟨parts, ?_, hframe⟩
  refine (List.forall₂_map_left_iff.mp hparts).imp ?_
  rintro value part ⟨a, b, rfl, ha, hb⟩
  cases ha with
  | uint hhead =>
      cases hb with
      | bytes hstring => exact ⟨a, b, rfl, hhead, hstring⟩

theorem value_encoded (h : IsAttestation entries values pcr0 userData timestamp)
    {entry : Bytes × Item} (hentry : entry ∈ entries) {bytes : Bytes}
    (hencodes : Encodes entry.2 bytes) :
    ValueBytes entry.1 (entryOf values userData timestamp entry.1) bytes := by
  have honly : ∀ {key : Bytes} {item : Item}, entries.filter (·.1 = key) = [(key, item)] →
      entry.1 = key → entry.2 = item := by
    intro key item hfilter hkey
    have hmem : entry ∈ entries.filter (·.1 = key) :=
      List.mem_filter.mpr ⟨hentry, decide_eq_true hkey⟩
    rw [hfilter, List.mem_singleton] at hmem
    exact congrArg Prod.snd hmem
  unfold entryOf
  split
  · next hkey =>
      rw [honly h.pcrs hkey] at hencodes
      obtain ⟨parts, hvalues, hframe⟩ := pcrs_encoded hencodes
      exact .pcrs hkey hvalues hframe
  split
  · next hkey =>
      rw [honly h.userData hkey] at hencodes
      cases hencodes with
      | bytes hstring => exact .userData hkey hstring
  split
  · next hkey =>
      rw [honly h.timestamp hkey] at hencodes
      cases hencodes with
      | uint hhead => exact .timestamp hkey hhead
  · next hpcrs huser htime =>
      exact .other (by simp [hpcrs, huser, htime]) (skipped_of_encodes hencodes)

theorem doc_encoded (h : IsAttestation entries values pcr0 userData timestamp)
    (hencodes : Encodes (.map (entries.map fun entry => (.text entry.1, entry.2))) payload) :
    ∃ parts, List.Forall₂ EntryBytes
        (entries.map fun entry => entryOf values userData timestamp entry.1) parts ∧
      Framed 5 parts.length parts.flatten payload := by
  obtain ⟨parts, hparts, hframe⟩ := hencodes.map_entries
  refine ⟨parts, ?_, hframe⟩
  rw [List.forall₂_map_left_iff] at hparts ⊢
  refine ((List.forall₂_and_left _ _).mpr ⟨fun _ hentry => hentry, hparts⟩).imp ?_
  rintro entry part ⟨hentry, key, value, rfl, hkey, hvalue⟩
  cases hkey with
  | text hstring => exact ⟨entry.1, key, value, rfl, hstring, value_encoded h hentry hvalue⟩

/-- Where only the one element with a property contributes, it contributes everything. -/
theorem flatMap_of_filter {α ι : Type} {l : List ι} {p : ι → Bool} {x : ι} {f : ι → List α}
    (hfilter : l.filter p = [x]) (hf : ∀ y, p y = false → f y = []) : l.flatMap f = f x := by
  have hrest : l.flatMap f = (l.filter p).flatMap f := by
    clear hfilter
    induction l with
    | nil => rfl
    | cons y l ih =>
        rw [List.flatMap_cons, List.filter_cons, ih]
        split
        · rfl
        · next hne => rw [hf y (by simpa using hne), List.nil_append]
  rw [hrest, hfilter]
  exact List.append_nil _

theorem pcrs_found (h : values.filter (·.1 = 0) = [(0, pcr0)]) :
    Found.collect pcrFound values = ⟨[pcr0], [], []⟩ := by
  have hpcr0 := flatMap_of_filter h (f := fun value => (pcrFound value).pcr0s) (by
    intro value hne
    simp [pcrFound, of_decide_eq_false hne])
  have hother : ∀ value, (pcrFound value).userDatas = [] ∧ (pcrFound value).timestamps = [] := by
    intro value
    unfold pcrFound
    split <;> exact ⟨rfl, rfl⟩
  simp only [Found.collect, hpcr0, hother]
  simp [pcrFound]

theorem collect_entryOf (h : IsAttestation entries values pcr0 userData timestamp) :
    Found.collect Entry.found
      (entries.map fun entry => entryOf values userData timestamp entry.1) =
      ⟨[pcr0], [userData], [timestamp]⟩ := by
  have hpcrs := pcrs_found h.pcr0
  -- the contribution of each key
  have hfound : ∀ key, (entryOf values userData timestamp key).found =
      if key = pcrsKey then ⟨[pcr0], [], []⟩ else if key = userDataKey then ⟨[], [userData], []⟩
      else if key = timestampKey then ⟨[], [], [timestamp]⟩ else ⟨[], [], []⟩ := by
    intro key
    unfold entryOf
    split_ifs <;> simp only [Entry.found, hpcrs]
  simp only [Found.collect, List.flatMap_map, hfound, Found.mk.injEq]
  refine ⟨?_, ?_, ?_⟩
  · rw [flatMap_of_filter h.pcrs]
    · rw [if_pos rfl]
    · intro entry hne
      rw [if_neg (of_decide_eq_false hne)]
      split_ifs <;> rfl
  · rw [flatMap_of_filter h.userData]
    · rfl
    · intro entry hne
      rw [if_neg (of_decide_eq_false hne)]
      split_ifs <;> rfl
  · rw [flatMap_of_filter h.timestamp]
    · rfl
    · intro entry hne
      rw [if_neg (of_decide_eq_false hne)]
      split_ifs <;> rfl

/-- Whatever encoding of an attestation document is signed, the validator finds its fields, and
nothing that is nested in other values. -/
theorem parse_attestation_doc_exact (h : IsAttestation entries values pcr0 userData timestamp)
    (hencodes : Encodes (.map (entries.map fun entry => (.text entry.1, entry.2))) payload)
    (hlength : payload.length < 2 ^ 64) :
    parseAttestationDoc payload = .ok (pcr0, userData, timestamp) := by
  obtain ⟨parts, hentries, hframe⟩ := doc_encoded h hencodes
  have hdoc : DocBytes (pcr0, userData, timestamp) payload :=
    ⟨_, parts, hentries, hframe, collect_entryOf h⟩
  have hparse := @parseAttestationDoc_complete _ _ [] hdoc (by rwa [List.append_nil])
  rwa [List.append_nil] at hparse

/-- An array that holds the text `user_data`, one register, the user data and a timestamp. -/
def sampleEntries : List (Bytes × Item) :=
  [([0x78], .array [.text userDataKey]), (pcrsKey, .map [(.uint 0, .bytes [1])]),
    (userDataKey, .bytes [2]), (timestampKey, .uint 3)]

/-- The map in the open form, with all heads as short as they can be. -/
def samplePayload : Bytes :=
  [0xbf] ++ [0x61, 0x78] ++ ([0x81, 0x69] ++ userDataKey) ++ ([0x64] ++ pcrsKey) ++
    [0xa1, 0x00, 0x41, 0x01] ++ ([0x69] ++ userDataKey) ++ [0x41, 0x02] ++
    ([0x69] ++ timestampKey) ++ [0x03] ++ [0xff]

theorem encodes_samplePayload :
    Encodes (.map (sampleEntries.map fun entry => (.text entry.1, entry.2))) samplePayload := by
  have htext : ∀ {content : Bytes}, content.length < 24 →
      Encodes (.text content) ([initialByte 3 content.length] ++ content) :=
    fun h => .text (.whole (.tiny h))
  have hbytes : ∀ {content : Bytes}, content.length < 24 →
      Encodes (.bytes content) ([initialByte 2 content.length] ++ content) :=
    fun h => .bytes (.whole (.tiny h))
  have huint : ∀ {n : Nat}, n < 24 → Encodes (.uint n) [initialByte 0 n] := fun h => .uint (.tiny h)
  have harray : Encodes (.array [.text userDataKey]) ([0x81] ++ ([0x69] ++ userDataKey)) :=
    @Encodes.array [(.text userDataKey, [0x69] ++ userDataKey)] _
      (List.forall_mem_singleton.mpr (htext (by decide))) (.counted (.tiny (by decide)))
  have hpcrs : Encodes (.map [(.uint 0, .bytes [1])]) [0xa1, 0x00, 0x41, 0x01] :=
    @Encodes.map [((.uint 0, [0x00]), (.bytes [1], [0x41, 0x01]))] _
      (List.forall_mem_singleton.mpr (huint (by decide)))
      (List.forall_mem_singleton.mpr (hbytes (by decide)))
      (.counted (.tiny (by decide)))
  refine @Encodes.map [((.text [0x78], [0x61, 0x78]), (_, [0x81] ++ ([0x69] ++ userDataKey))),
    ((.text pcrsKey, [0x64] ++ pcrsKey), (_, [0xa1, 0x00, 0x41, 0x01])),
    ((.text userDataKey, [0x69] ++ userDataKey), (.bytes [2], [0x41, 0x02])),
    ((.text timestampKey, [0x69] ++ timestampKey), (.uint 3, [0x03]))] _ ?_ ?_ .opened
  · simp only [List.forall_mem_cons]
    exact ⟨htext (by decide), htext (by decide), htext (by decide), htext (by decide), by simp⟩
  · simp only [List.forall_mem_cons]
    exact ⟨harray, hpcrs, hbytes (by decide), huint (by decide), by simp⟩

theorem isAttestation_sample : IsAttestation sampleEntries [(0, [1])] [1] [2] 3 :=
  ⟨rfl, rfl, rfl, rfl⟩

theorem parse_attestation_doc_sample : parseAttestationDoc samplePayload = .ok ([1], [2], 3) :=
  parse_attestation_doc_exact isAttestation_sample encodes_samplePayload (by decide)

end Document

end FluentStf.NitroValidator
