import FluentStf.Mpt.Decode
import FluentStf.Mpt.Resolve

/-! Which byte strings the decoder of nodes survives. The first byte of the path of a leaf or
an extension tells the two apart, and it is taken without a look at the length of the path. -/
namespace FluentStf.Mpt

namespace RlpReader

/-- What the decoder relies on in the reader. -/
structure Lawful (reader : RlpReader) : Prop where
  prototype_nil : reader.prototype [] = .ok .null
  /-- An item of a list lacks at least the header of the list. -/
  itemAt_shorter : ∀ {rlp i item}, reader.itemAt rlp i = .ok item → item.length < rlp.length
  iter_shorter : ∀ {rlp item}, item ∈ reader.iter rlp → item.length < rlp.length
  /-- The count of a list is the number of items that can be iterated over. -/
  count : ∀ {rlp n}, reader.prototype rlp = .ok (.list n) → (reader.iter rlp).length = n
  size : ∀ {rlp bytes}, reader.prototype rlp = .ok (.data 32) → reader.asVal rlp = .ok bytes →
    bytes.length = 32

variable (reader : RlpReader)

/-- The encodings of nodes. -/
inductive WellFormed : Bytes → Prop
  | null {rlp} (hprototype : reader.prototype rlp = .ok .null) : WellFormed rlp
  | empty {rlp} (hprototype : reader.prototype rlp = .ok (.data 0)) : WellFormed rlp
  | digest {rlp bytes} (hprototype : reader.prototype rlp = .ok (.data 32))
      (hbytes : reader.asVal rlp = .ok bytes) : WellFormed rlp
  | leaf {rlp first rest value} (hprototype : reader.prototype rlp = .ok (.list 2))
      (hpath : reader.valAt rlp 0 = .ok (first :: rest)) (hflag : hasLeafFlag first = true)
      (hvalue : reader.valAt rlp 1 = .ok value) : WellFormed rlp
  | extension {rlp first rest item} (hprototype : reader.prototype rlp = .ok (.list 2))
      (hpath : reader.valAt rlp 0 = .ok (first :: rest)) (hflag : hasLeafFlag first = false)
      (hitem : reader.itemAt rlp 1 = .ok item) (hchild : WellFormed item) : WellFormed rlp
  | branch {rlp} (hprototype : reader.prototype rlp = .ok (.list 17))
      (hchildren : ∀ item ∈ (reader.iter rlp).take 16, WellFormed item)
      (hvalue : reader.valAt rlp 16 = .ok []) : WellFormed rlp

/-- The items that the decoder comes to: the target of an extension, and the children of a
branch up to the first that is no encoding of a node. -/
inductive Reaches : Bytes → Bytes → Prop
  | self (rlp) : Reaches rlp rlp
  | extension {rlp first rest item target} (hprototype : reader.prototype rlp = .ok (.list 2))
      (hpath : reader.valAt rlp 0 = .ok (first :: rest)) (hflag : hasLeafFlag first = false)
      (hitem : reader.itemAt rlp 1 = .ok item) (hreach : Reaches item target) :
      Reaches rlp target
  | branch {rlp before item after target} (hprototype : reader.prototype rlp = .ok (.list 17))
      (hiter : (reader.iter rlp).take 16 = before ++ item :: after)
      (hbefore : ∀ earlier ∈ before, WellFormed reader earlier) (hreach : Reaches item target) :
      Reaches rlp target

/-- A list of two items, the first of them the empty string. -/
def EmptyPath (rlp : Bytes) : Prop :=
  reader.prototype rlp = .ok (.list 2) ∧ reader.valAt rlp 0 = .ok []

end RlpReader

section Decoder

variable {reader : RlpReader} {decode : Bytes → Except NodeDecodeError MptNode} {rlp : Bytes}
  {node : MptNode}

theorem fromRlp_eq_ok {α : Type} {x : Except Rlp.DecodeError α} {a : α} :
    fromRlp x = .ok a ↔ x = .ok a := by
  cases x <;> simp [fromRlp]

theorem fromRlp_ne_panic {α : Type} (x : Except Rlp.DecodeError α) : fromRlp x ≠ .error .panic := by
  cases x <;> simp [fromRlp]

theorem mapM_congr {α β ε : Type} {f g : α → Except ε β} {as : List α}
    (h : ∀ a ∈ as, f a = g a) : as.mapM f = as.mapM g := by
  induction as with
  | nil => rfl
  | cons a as ih =>
      rw [List.mapM_cons, List.mapM_cons, h a (.head _), ih fun b hb => h b (.tail _ hb)]

theorem decodePair_eq_ok :
    decodePair reader decode rlp = .ok node ↔
      ∃ first rest, reader.valAt rlp 0 = .ok (first :: rest) ∧
        ((hasLeafFlag first = true ∧ ∃ value, reader.valAt rlp 1 = .ok value ∧
            node = .Leaf (first :: rest) value) ∨
          (hasLeafFlag first = false ∧ ∃ item child, reader.itemAt rlp 1 = .ok item ∧
            decode item = .ok child ∧ node = .Extension (first :: rest) child)) := by
  rw [decodePair, bind_eq_ok]
  simp only [fromRlp_eq_ok]
  constructor
  · rintro ⟨path, hpath, hnode⟩
    cases path with
    | nil => cases hnode
    | cons first rest =>
        refine ⟨first, rest, hpath, ?_⟩
        cases hflag : hasLeafFlag first with
        | true =>
            simp only [hflag, if_true, bind_eq_ok, fromRlp_eq_ok] at hnode
            obtain ⟨value, hvalue, hnode⟩ := hnode
            exact .inl ⟨rfl, value, hvalue, (Except.ok.inj hnode).symm⟩
        | false =>
            simp only [hflag, Bool.false_eq_true, if_false, bind_eq_ok, fromRlp_eq_ok] at hnode
            obtain ⟨item, hitem, child, hchild, hnode⟩ := hnode
            exact .inr ⟨rfl, item, child, hitem, hchild, (Except.ok.inj hnode).symm⟩
  · rintro ⟨first, rest, hpath, ⟨hflag, value, hvalue, rfl⟩ |
      ⟨hflag, item, child, hitem, hchild, rfl⟩⟩
    · refine ⟨_, hpath, ?_⟩
      simp [hflag, hvalue, fromRlp, bind, Except.bind]
    · refine ⟨_, hpath, ?_⟩
      simp [hflag, hitem, hchild, fromRlp, bind, Except.bind]

theorem decodePair_eq_panic :
    decodePair reader decode rlp = .error .panic ↔ reader.valAt rlp 0 = .ok [] ∨
      ∃ first rest item, reader.valAt rlp 0 = .ok (first :: rest) ∧ hasLeafFlag first = false ∧
        reader.itemAt rlp 1 = .ok item ∧ decode item = .error .panic := by
  rw [decodePair, bind_eq_error]
  simp only [fromRlp_eq_ok, fromRlp_ne_panic, false_or]
  constructor
  · rintro ⟨path, hpath, hpanic⟩
    cases path with
    | nil => exact .inl hpath
    | cons first rest =>
        refine .inr ⟨first, rest, ?_⟩
        cases hflag : hasLeafFlag first with
        | true =>
            simp [hflag, bind_eq_error, fromRlp_ne_panic] at hpanic
        | false =>
            simp only [hflag, Bool.false_eq_true, if_false, bind_eq_error, fromRlp_ne_panic,
              fromRlp_eq_ok, false_or] at hpanic
            obtain ⟨item, hitem, hpanic | ⟨_, _, hok⟩⟩ := hpanic
            · exact ⟨item, hpath, rfl, hitem, hpanic⟩
            · cases hok
  · rintro (hpath | ⟨first, rest, item, hpath, hflag, hitem, hpanic⟩)
    · exact ⟨[], hpath, rfl⟩
    · refine ⟨_, hpath, ?_⟩
      simp [hflag, hitem, hpanic, fromRlp, bind, Except.bind]

theorem map_eq_error {ε α β : Type} {x : Except ε α} {f : α → β} {e : ε} :
    x.map f = .error e ↔ x = .error e := by
  cases x <;> simp [Except.map]

theorem map_eq_ok {ε α β : Type} {x : Except ε α} {f : α → β} {b : β} :
    x.map f = .ok b ↔ ∃ a, x = .ok a ∧ f a = b := by
  cases x <;> simp [Except.map]

theorem decodeBranch_eq_ok :
    decodeBranch reader decode rlp = .ok node ↔ ∃ children : List (Option MptNode),
      List.Forall₂ (fun item child => decodeChild reader decode item = .ok child)
        ((reader.iter rlp).take 16) children ∧ reader.valAt rlp 16 = .ok [] ∧
      branchOf children = .ok node := by
  rw [decodeBranch, bind_eq_ok]
  simp only [mapM_eq_ok, bind_eq_ok, fromRlp_eq_ok]
  constructor
  · rintro ⟨children, hchildren, value, hvalue, hnode⟩
    split_ifs at hnode with hempty
    rw [hempty] at hvalue
    exact ⟨children, hchildren, hvalue, hnode⟩
  · rintro ⟨children, hchildren, hvalue, hnode⟩
    exact ⟨children, hchildren, [], hvalue, by rw [if_pos rfl, hnode]⟩

theorem exists_of_forall₂_left {α β : Type} {r : α → β → Prop} {as : List α} {bs : List β} {a : α}
    (h : List.Forall₂ r as bs) (ha : a ∈ as) : ∃ b, r a b := by
  induction h with
  | nil => cases ha
  | cons hr _ ih =>
      rcases List.mem_cons.mp ha with rfl | ha
      · exact ⟨_, hr⟩
      · exact ih ha

theorem exists_of_forall₂_right {α β : Type} {r : α → β → Prop} {as : List α} {bs : List β} {b : β}
    (h : List.Forall₂ r as bs) (hb : b ∈ bs) : ∃ a ∈ as, r a b := by
  induction h with
  | nil => cases hb
  | cons hr _ ih =>
      rcases List.mem_cons.mp hb with rfl | hb
      · exact ⟨_, .head _, hr⟩
      · obtain ⟨a, ha, hra⟩ := ih hb
        exact ⟨a, .tail _ ha, hra⟩

theorem branchOf_eq_ok {children : List (Option MptNode)} (h : branchOf children = .ok node) :
    ∃ shown : Nibble → Option MptNode, node = .Branch shown ∧ ∀ i, shown i ∈ children := by
  rw [branchOf] at h
  split_ifs at h
  exact ⟨_, (Except.ok.inj h).symm, fun i => List.get_mem _ _⟩

theorem exists_branchOf {children : List (Option MptNode)} (h : children.length = 16) :
    ∃ node, branchOf children = .ok node := by
  rw [branchOf, dif_pos h]
  exact ⟨_, rfl⟩

theorem digestOf_eq {bytes : Bytes} (h : bytes.length = 32) :
    digestOf bytes = .ok (.Digest ⟨bytes, h⟩) := dif_pos h

open MptNode (decodeWith)

variable (hreader : reader.Lawful)

include hreader

/-- The nodes inside a node are shorter. -/
theorem decodeStep_congr {other : Bytes → Except NodeDecodeError MptNode}
    (h : ∀ item, item.length < rlp.length → decode item = other item) :
    decodeStep reader decode rlp = decodeStep reader other rlp := by
  have hpair : decodePair reader decode rlp = decodePair reader other rlp := by
    unfold decodePair
    cases hitem : reader.itemAt rlp 1 with
    | error e => rfl
    | ok item =>
        simp only [bind, Except.bind, fromRlp, h item (hreader.itemAt_shorter hitem)]
  have hbranch : decodeBranch reader decode rlp = decodeBranch reader other rlp := by
    have hchildren : ((reader.iter rlp).take 16).mapM (decodeChild reader decode) =
        ((reader.iter rlp).take 16).mapM (decodeChild reader other) := by
      apply mapM_congr
      intro item hitem
      rw [decodeChild, decodeChild, h item (hreader.iter_shorter (List.mem_of_mem_take hitem))]
    rw [decodeBranch, decodeBranch, hchildren]
  rw [decodeStep, decodeStep, hpair, hbranch]

theorem decodeNode_depth {depth more : Nat} (hdepth : rlp.length ≤ depth)
    (hmore : rlp.length ≤ more) :
    decodeNode reader depth rlp = decodeNode reader more rlp := by
  have hempty : ∀ depth, decodeNode reader depth [] = .ok .Null := by
    intro depth
    cases depth with
    | zero => rfl
    | succ depth => simp only [decodeNode, decodeStep, hreader.prototype_nil]
  induction depth generalizing more rlp with
  | zero =>
      obtain rfl : rlp = [] := List.length_eq_zero_iff.mp (by omega)
      rw [hempty, hempty]
  | succ depth ih =>
      cases more with
      | zero =>
          obtain rfl : rlp = [] := List.length_eq_zero_iff.mp (by omega)
          rw [hempty, hempty]
      | succ more =>
          rw [decodeNode, decodeNode]
          apply decodeStep_congr hreader
          intro item hitem
          exact ih (by omega) (by omega)

/-- The decoder without the bound: it calls itself for the nodes inside a node. -/
theorem decodeWith_eq (rlp : Bytes) :
    decodeWith reader rlp = decodeStep reader (decodeWith reader) rlp := by
  rw [decodeWith, decodeNode_depth hreader le_rfl (Nat.le_succ _), decodeNode]
  apply decodeStep_congr hreader
  intro item hitem
  exact decodeNode_depth hreader (by omega) le_rfl

/-- A child is read like any other node, but an empty one is left out. -/
theorem decodeChild_eq (item : Bytes) :
    ∃ shown : MptNode → Option MptNode, (∀ node, shown node = none ∨ shown node = some node) ∧
      decodeChild reader (decodeWith reader) item =
        (decodeWith reader item).map shown := by
  have hbind : ∀ x : Except NodeDecodeError MptNode,
      (do let child ← x; .ok (some child)) = x.map some := by
    intro x
    cases x <;> rfl
  rw [decodeChild]
  cases hprototype : reader.prototype item with
  | error e =>
      refine ⟨some, fun node => .inr rfl, ?_⟩
      rw [decodeWith_eq hreader, decodeStep, hprototype]
      rfl
  | ok prototype =>
      cases prototype with
      | null =>
          refine ⟨fun _ => none, fun node => .inl rfl, ?_⟩
          rw [decodeWith_eq hreader, decodeStep, hprototype]
          rfl
      | list count => exact ⟨some, fun node => .inr rfl, hbind _⟩
      | data size =>
          cases size with
          | zero =>
              refine ⟨fun _ => none, fun node => .inl rfl, ?_⟩
              rw [decodeWith_eq hreader, decodeStep, hprototype]
              rfl
          | succ size => exact ⟨some, fun node => .inr rfl, hbind _⟩

theorem decodeChild_eq_error {item : Bytes} {e : NodeDecodeError} :
    decodeChild reader (decodeWith reader) item = .error e ↔
      decodeWith reader item = .error e := by
  obtain ⟨shown, -, hchild⟩ := decodeChild_eq hreader item
  rw [hchild, map_eq_error]

theorem exists_decodeChild_eq_ok {item : Bytes} :
    (∃ child, decodeChild reader (decodeWith reader) item = .ok child) ↔
      ∃ node, decodeWith reader item = .ok node := by
  obtain ⟨shown, -, hchild⟩ := decodeChild_eq hreader item
  simp only [hchild, map_eq_ok]
  exact ⟨fun ⟨_, node, hnode, _⟩ => ⟨node, hnode⟩, fun ⟨node, hnode⟩ => ⟨_, node, hnode, rfl⟩⟩

/-- A child that is shown is a node that was read. -/
theorem decodeChild_eq_some {item : Bytes}
    (h : decodeChild reader (decodeWith reader) item = .ok (some node)) :
    decodeWith reader item = .ok node := by
  obtain ⟨shown, hshown, hchild⟩ := decodeChild_eq hreader item
  rw [hchild, map_eq_ok] at h
  obtain ⟨read, hread, hsome⟩ := h
  rcases hshown read with hnone | hsame
  · rw [hnone] at hsome
    cases hsome
  · rw [hsame] at hsome
    cases hsome
    exact hread

/-- The sixteen items in front of the value. -/
theorem length_take_iter (hprototype : reader.prototype rlp = .ok (.list 17)) :
    ((reader.iter rlp).take 16).length = 16 := by
  rw [List.length_take, hreader.count hprototype]
  rfl

theorem decodeBranch_eq_panic (hprototype : reader.prototype rlp = .ok (.list 17)) :
    decodeBranch reader decode rlp = .error .panic ↔
      ∃ before item after, (reader.iter rlp).take 16 = before ++ item :: after ∧
        (∀ earlier ∈ before, ∃ child, decodeChild reader decode earlier = .ok child) ∧
        decodeChild reader decode item = .error .panic := by
  rw [decodeBranch, bind_eq_error, mapM_eq_error]
  constructor
  · rintro (hchild | ⟨children, hchildren, hrest⟩)
    · exact hchild
    · -- Sixteen children were read, so that a branch can be made of them.
      have hlength : children.length = 16 := by
        rw [← length_take_iter hreader hprototype, (mapM_eq_ok.mp hchildren).length_eq]
      obtain ⟨node, hnode⟩ := exists_branchOf hlength
      rw [bind_eq_error] at hrest
      obtain hvalue | ⟨value, -, hbranch⟩ := hrest
      · exact absurd hvalue (fromRlp_ne_panic _)
      · rw [hnode] at hbranch
        split_ifs at hbranch
        cases hbranch
  · exact .inl

theorem decodeWith_of_null (h : reader.prototype rlp = .ok .null) :
    decodeWith reader rlp = .ok .Null := by
  simp only [decodeWith_eq hreader, decodeStep, h]

theorem decodeWith_of_data {size : Nat} (h : reader.prototype rlp = .ok (.data size)) :
    decodeWith reader rlp =
      if size = 0 then .ok .Null
      else if size = 32 then fromRlp (reader.asVal rlp) >>= digestOf
      else .error .incorrectListLen := by
  simp only [decodeWith_eq hreader, decodeStep, h]

theorem decodeWith_of_list {count : Nat} (h : reader.prototype rlp = .ok (.list count)) :
    decodeWith reader rlp =
      if count = 2 then decodePair reader (decodeWith reader) rlp
      else if count = 17 then decodeBranch reader (decodeWith reader) rlp
      else .error .incorrectListLen := by
  simp only [decodeWith_eq hreader, decodeStep, h]

/-- The decoder accepts the encodings of nodes. -/
theorem exists_decodeWith_of_wellFormed (h : reader.WellFormed rlp) :
    ∃ node, decodeWith reader rlp = .ok node := by
  induction h with
  | null hprototype => exact ⟨_, decodeWith_of_null hreader hprototype⟩
  | empty hprototype =>
      rw [decodeWith_of_data hreader hprototype]
      exact ⟨_, rfl⟩
  | digest hprototype hbytes =>
      rw [decodeWith_of_data hreader hprototype, hbytes]
      exact ⟨_, digestOf_eq (hreader.size hprototype hbytes)⟩
  | leaf hprototype hpath hflag hvalue =>
      rw [decodeWith_of_list hreader hprototype, if_pos rfl]
      exact ⟨_, decodePair_eq_ok.mpr ⟨_, _, hpath, .inl ⟨hflag, _, hvalue, rfl⟩⟩⟩
  | extension hprototype hpath hflag hitem _ ih =>
      obtain ⟨child, hchild⟩ := ih
      rw [decodeWith_of_list hreader hprototype, if_pos rfl]
      exact ⟨_, decodePair_eq_ok.mpr
        ⟨_, _, hpath, .inr ⟨hflag, _, child, hitem, hchild, rfl⟩⟩⟩
  | @branch rlp hprototype _ hvalue ih =>
      rw [decodeWith_of_list hreader hprototype, if_neg (by decide), if_pos rfl]
      cases hmap : ((reader.iter rlp).take 16).mapM
          (decodeChild reader (decodeWith reader)) with
      | error e =>
          obtain ⟨before, item, after, hiter, -, hitem⟩ := mapM_eq_error.mp hmap
          obtain ⟨node, hnode⟩ := ih item (by simp [hiter])
          rw [decodeChild_eq_error hreader, hnode] at hitem
          cases hitem
      | ok children =>
          have hchildren := mapM_eq_ok.mp hmap
          have hlength : children.length = 16 := by
            rw [← hchildren.length_eq, length_take_iter hreader hprototype]
          obtain ⟨node, hnode⟩ := exists_branchOf hlength
          exact ⟨node, decodeBranch_eq_ok.mpr ⟨children, hchildren, hvalue, hnode⟩⟩

/-- Induction over what the decoder reads: one case for each way to accept an item. -/
theorem decodeWith_induction {motive : Bytes → MptNode → Prop}
    (null : ∀ rlp, reader.prototype rlp = .ok .null → motive rlp .Null)
    (empty : ∀ rlp, reader.prototype rlp = .ok (.data 0) → motive rlp .Null)
    (digest : ∀ rlp bytes digest, reader.prototype rlp = .ok (.data 32) →
      reader.asVal rlp = .ok bytes → motive rlp (.Digest digest))
    (leaf : ∀ rlp first rest value, reader.prototype rlp = .ok (.list 2) →
      reader.valAt rlp 0 = .ok (first :: rest) → hasLeafFlag first = true →
      reader.valAt rlp 1 = .ok value → motive rlp (.Leaf (first :: rest) value))
    (extension : ∀ rlp first rest item child, reader.prototype rlp = .ok (.list 2) →
      reader.valAt rlp 0 = .ok (first :: rest) → hasLeafFlag first = false →
      reader.itemAt rlp 1 = .ok item → motive item child →
      motive rlp (.Extension (first :: rest) child))
    (branch : ∀ rlp children, reader.prototype rlp = .ok (.list 17) →
      reader.valAt rlp 16 = .ok [] →
      (∀ item ∈ (reader.iter rlp).take 16, ∃ node, motive item node) →
      (∀ i child, children i = some child → ∃ item, motive item child) →
      motive rlp (.Branch children))
    {node : MptNode} (h : decodeWith reader rlp = .ok node) :
    motive rlp node := by
  induction hlength : rlp.length using Nat.strong_induction_on generalizing rlp node with
  | h length ih =>
      subst hlength
      cases hprototype : reader.prototype rlp with
      | error e =>
          rw [decodeWith_eq hreader, decodeStep, hprototype] at h
          cases h
      | ok prototype =>
          cases prototype with
          | null =>
              rw [decodeWith_of_null hreader hprototype] at h
              cases h
              exact null rlp hprototype
          | data size =>
              rw [decodeWith_of_data hreader hprototype] at h
              split_ifs at h with hzero hdigest
              · cases h
                exact empty rlp (hzero ▸ hprototype)
              · obtain ⟨bytes, hbytes, hnode⟩ := bind_eq_ok.mp h
                rw [digestOf] at hnode
                split_ifs at hnode
                cases hnode
                exact digest rlp bytes _ (hdigest ▸ hprototype) (fromRlp_eq_ok.mp hbytes)
          | list count =>
              rw [decodeWith_of_list hreader hprototype] at h
              split_ifs at h with hpair hbranch
              · subst hpair
                obtain ⟨first, rest, hpath, ⟨hflag, value, hvalue, rfl⟩ |
                  ⟨hflag, item, child, hitem, hchild, rfl⟩⟩ := decodePair_eq_ok.mp h
                · exact leaf rlp first rest value hprototype hpath hflag hvalue
                · exact extension rlp first rest item child hprototype hpath hflag hitem
                    (ih _ (hreader.itemAt_shorter hitem) hchild rfl)
              · subst hbranch
                obtain ⟨children, hchildren, hvalue, hnode⟩ := decodeBranch_eq_ok.mp h
                obtain ⟨shown, rfl, hshown⟩ := branchOf_eq_ok hnode
                have hread : ∀ item ∈ (reader.iter rlp).take 16, ∀ node,
                    decodeWith reader item = .ok node → motive item node :=
                  fun item hitem node hnode =>
                    ih _ (hreader.iter_shorter (List.mem_of_mem_take hitem)) hnode rfl
                refine branch rlp shown hprototype hvalue (fun item hitem => ?_) ?_
                · obtain ⟨child, hchild⟩ := exists_of_forall₂_left hchildren hitem
                  obtain ⟨node, hnode⟩ := (exists_decodeChild_eq_ok hreader).mp ⟨child, hchild⟩
                  exact ⟨node, hread item hitem node hnode⟩
                · intro i child hi
                  obtain ⟨item, hitem, hchild⟩ :=
                    exists_of_forall₂_right hchildren (hi ▸ hshown i)
                  exact ⟨item, hread item hitem child (decodeChild_eq_some hreader hchild)⟩

theorem wellFormed_of_decodeWith {node : MptNode}
    (h : decodeWith reader rlp = .ok node) : reader.WellFormed rlp := by
  apply decodeWith_induction hreader (motive := fun rlp _ => reader.WellFormed rlp) (h := h)
  case null => exact fun rlp => .null
  case empty => exact fun rlp => .empty
  case digest => exact fun rlp bytes digest => .digest
  case leaf => exact fun rlp first rest value => .leaf
  case extension => exact fun rlp first rest item child => .extension
  case branch =>
    intro rlp children hprototype hvalue hitems _
    refine .branch hprototype (fun item hitem => ?_) hvalue
    obtain ⟨_, hwellFormed⟩ := hitems item hitem
    exact hwellFormed

/-- What is accepted is well formed, and what is well formed is accepted. -/
theorem exists_decodeWith_iff (rlp : Bytes) :
    (∃ node, decodeWith reader rlp = .ok node) ↔ reader.WellFormed rlp :=
  ⟨fun ⟨_, h⟩ => wellFormed_of_decodeWith hreader h, exists_decodeWith_of_wellFormed hreader⟩

theorem decodeWith_eq_panic_of_reaches {target : Bytes}
    (h : reader.Reaches rlp target) (hempty : reader.EmptyPath target) :
    decodeWith reader rlp = .error .panic := by
  induction h with
  | self rlp =>
      rw [decodeWith_of_list hreader hempty.1, if_pos rfl]
      exact decodePair_eq_panic.mpr (.inl hempty.2)
  | extension hprototype hpath hflag hitem _ ih =>
      rw [decodeWith_of_list hreader hprototype, if_pos rfl]
      exact decodePair_eq_panic.mpr (.inr ⟨_, _, _, hpath, hflag, hitem, ih hempty⟩)
  | branch hprototype hiter hbefore _ ih =>
      rw [decodeWith_of_list hreader hprototype, if_neg (by decide), if_pos rfl]
      refine (decodeBranch_eq_panic hreader hprototype).mpr ⟨_, _, _, hiter, ?_, ?_⟩
      · intro earlier hearlier
        exact (exists_decodeChild_eq_ok hreader).mpr
          (exists_decodeWith_of_wellFormed hreader (hbefore earlier hearlier))
      · exact (decodeChild_eq_error hreader).mpr (ih hempty)

theorem reaches_of_decodeWith_eq_panic (h : decodeWith reader rlp = .error .panic) :
    ∃ target, reader.Reaches rlp target ∧ reader.EmptyPath target := by
  induction hlength : rlp.length using Nat.strong_induction_on generalizing rlp with
  | h length ih =>
      subst hlength
      cases hprototype : reader.prototype rlp with
      | error e =>
          rw [decodeWith_eq hreader, decodeStep, hprototype] at h
          cases h
      | ok prototype =>
          cases prototype with
          | null =>
              rw [decodeWith_of_null hreader hprototype] at h
              cases h
          | data size =>
              rw [decodeWith_of_data hreader hprototype] at h
              split_ifs at h with hzero hdigest
              · obtain hbytes | ⟨bytes, hbytes, hpanic⟩ := bind_eq_error.mp h
                · exact absurd hbytes (fromRlp_ne_panic _)
                · have hsize := hreader.size (hdigest ▸ hprototype) (fromRlp_eq_ok.mp hbytes)
                  rw [digestOf_eq hsize] at hpanic
                  cases hpanic
              · cases h
          | list count =>
              rw [decodeWith_of_list hreader hprototype] at h
              split_ifs at h with hpair hbranch
              · subst hpair
                obtain hpath | ⟨first, rest, item, hpath, hflag, hitem, hpanic⟩ :=
                  decodePair_eq_panic.mp h
                · exact ⟨rlp, .self rlp, hprototype, hpath⟩
                · obtain ⟨target, hreach, hempty⟩ :=
                    ih _ (hreader.itemAt_shorter hitem) hpanic rfl
                  exact ⟨target, .extension hprototype hpath hflag hitem hreach, hempty⟩
              · subst hbranch
                obtain ⟨before, item, after, hiter, hbefore, hpanic⟩ :=
                  (decodeBranch_eq_panic hreader hprototype).mp h
                have hmem : item ∈ (reader.iter rlp).take 16 := by simp [hiter]
                have hshorter := hreader.iter_shorter (List.mem_of_mem_take hmem)
                obtain ⟨target, hreach, hempty⟩ :=
                  ih _ hshorter ((decodeChild_eq_error hreader).mp hpanic) rfl
                have hearlier : ∀ earlier ∈ before, reader.WellFormed earlier :=
                  fun earlier hearlier => (exists_decodeWith_iff hreader earlier).mp
                    ((exists_decodeChild_eq_ok hreader).mp (hbefore earlier hearlier))
                exact ⟨target, .branch hprototype hiter hearlier hreach, hempty⟩
              · cases h

end Decoder

namespace MptNode

mutual

/-- The paths of leaves and extensions have a first byte. -/
def PathsPresent : MptNode → Prop
  | .Null => True
  | .Branch children => ∀ i, ChildPathsPresent (children i)
  | .Leaf path _ => path ≠ []
  | .Extension path child => path ≠ [] ∧ child.PathsPresent
  | .Digest _ => True

def ChildPathsPresent : Option MptNode → Prop
  | none => True
  | some child => child.PathsPresent

end

theorem exists_prefixNibs {path : Bytes} (h : path ≠ []) : ∃ nibs, prefixNibs path = .ok nibs := by
  cases path with
  | nil => exact (h rfl).elim
  | cons first tail => exact ⟨_, rfl⟩

variable {node : MptNode}

theorem PathsPresent.nibs (h : node.PathsPresent) :
    ∃ nibs, node.nibs = .ok nibs := by
  cases node with
  | Null => exact ⟨_, rfl⟩
  | Branch children => exact ⟨_, rfl⟩
  | Digest digest => exact ⟨_, rfl⟩
  | Leaf path value => exact exists_prefixNibs h
  | Extension path child => exact exists_prefixNibs h.1

theorem PathsPresent.getInternal (h : node.PathsPresent) (keyNibs : List Nibble) :
    node.getInternal keyNibs ≠ .error .panic := by
  induction node generalizing keyNibs with
  | Null => simp [MptNode.getInternal]
  | Digest digest => simp [MptNode.getInternal]
  | Leaf path value =>
      obtain ⟨nibs, hnibs⟩ := exists_prefixNibs h
      rw [MptNode.getInternal, hnibs]
      dsimp only
      split <;> simp
  | Extension path child ih =>
      obtain ⟨nibs, hnibs⟩ := exists_prefixNibs h.1
      rw [MptNode.getInternal, hnibs]
      dsimp only
      split
      · exact ih h.2 _
      · simp
  | Branch children ih =>
      cases keyNibs with
      | nil => simp [MptNode.getInternal]
      | cons i tail =>
          have hpaths := h i
          rw [MptNode.getInternal]
          cases hchild : children i with
          | none => simp [getChild]
          | some child =>
              rw [hchild] at hpaths
              exact ih i child hchild hpaths tail

theorem PathsPresent.shortenNodePath (h : node.PathsPresent) :
    shortenNodePath node ≠ .error .panic := by
  obtain ⟨nibs, hnibs⟩ := h.nibs
  simp [Mpt.shortenNodePath, hnibs]

/-- Everything that is read has its paths. -/
theorem pathsPresent_of_decodeWith {reader : RlpReader} (hreader : reader.Lawful) {rlp : Bytes}
    (h : decodeWith reader rlp = .ok node) : node.PathsPresent := by
  apply decodeWith_induction hreader (motive := fun _ node => node.PathsPresent) (h := h)
  case null => exact fun rlp _ => trivial
  case empty => exact fun rlp _ => trivial
  case digest => exact fun rlp bytes digest _ _ => trivial
  case leaf => exact fun rlp first rest value _ _ _ _ => List.cons_ne_nil first rest
  case extension =>
    intro rlp first rest item child _ _ _ _ hchild
    exact ⟨List.cons_ne_nil first rest, hchild⟩
  case branch =>
    intro rlp children _ _ _ hchildren i
    cases hi : children i with
    | none => trivial
    | some child =>
        obtain ⟨_, hpaths⟩ := hchildren i child hi
        exact hpaths

end MptNode

theorem stringOf_length {rlp bytes : Bytes} {size : Nat}
    (hprototype : prototype rlp = .ok (.data size)) (hbytes : stringOf rlp = .ok bytes) :
    bytes.length = size := by
  unfold prototype at hprototype
  split at hprototype
  · cases hprototype
  · rw [stringOf, Rlp.decodeBytes] at hbytes
    cases hdecode : Rlp.Header.decode rlp with
    | error e => simp [hdecode] at hbytes
    | ok result =>
        obtain ⟨header, rest⟩ := result
        obtain ⟨hpayload, -⟩ := Rlp.Header.decode_bounds hdecode
        simp only [hdecode] at hbytes hprototype
        split_ifs at hbytes hprototype with hlist
        cases hbytes
        cases hprototype
        rw [List.length_take]
        omega

theorem length_itemsOf {rlp : Bytes} {n : Nat} (h : prototype rlp = .ok (.list n)) :
    (itemsOf rlp).length = n := by
  unfold prototype at h
  split at h
  · cases h
  · split at h
    · cases h
    · split_ifs at h
      · split at h
        · cases h
        · next items hitems =>
            cases h
            rw [itemsOf, hitems]
      · cases h

theorem strictReader_lawful : strictReader.Lawful where
  prototype_nil := rfl
  itemAt_shorter := by
    intro rlp i item h
    simp only [strictReader, itemAt] at h
    split at h
    · cases h
    · next items hitems =>
        split at h
        · cases h
        · next found hfound =>
            cases h
            exact Rlp.length_lt_of_mem_listItems hitems _ (List.mem_of_getElem? hfound)
  iter_shorter := by
    intro rlp item h
    simp only [strictReader, itemsOf] at h
    split at h
    · cases h
    · next items hitems => exact Rlp.length_lt_of_mem_listItems hitems _ h
  count h := length_itemsOf h
  size hprototype hbytes := stringOf_length hprototype hbytes

/-- Neither the decoder nor what is done with its result panics. -/
structure DecodesSafely (reader : RlpReader) (bytes : Bytes) : Prop where
  decode : MptNode.decodeWith reader bytes ≠ .error .panic
  nibs : ∀ node, MptNode.decodeWith reader bytes = .ok node → node.nibs ≠ .error .panic
  get : ∀ node, MptNode.decodeWith reader bytes = .ok node →
    ∀ key, node.get key ≠ .error .panic
  shorten : ∀ node, MptNode.decodeWith reader bytes = .ok node →
    shortenNodePath node ≠ .error .panic

/-- A byte string can be handed to the decoder unless the decoder comes to a list of two items
in it whose first item is empty. -/
theorem decodes_safely_iff {reader : RlpReader} (hreader : reader.Lawful) (bytes : Bytes) :
    DecodesSafely reader bytes ↔
      ∀ target, reader.Reaches bytes target → ¬reader.EmptyPath target := by
  constructor
  · intro h target hreach hempty
    exact h.decode (decodeWith_eq_panic_of_reaches hreader hreach hempty)
  · intro h
    refine ⟨fun hpanic => ?_, fun node hnode => ?_, fun node hnode key => ?_, fun node hnode => ?_⟩
    · obtain ⟨target, hreach, hempty⟩ := reaches_of_decodeWith_eq_panic hreader hpanic
      exact h target hreach hempty
    · obtain ⟨nibs, hnibs⟩ := (MptNode.pathsPresent_of_decodeWith hreader hnode).nibs
      simp [hnibs]
    · exact (MptNode.pathsPresent_of_decodeWith hreader hnode).getInternal _
    · exact (MptNode.pathsPresent_of_decodeWith hreader hnode).shortenNodePath

/-- An extension with a leaf inside. -/
def sampleExtension : Bytes := [0xc6, 0x11, 0xc4, 0x82, 0x20, 0x01, 0x07]

theorem sample_extension_decodes_safely :
    DecodesSafely strictReader sampleExtension ∧
      MptNode.decodeWith strictReader sampleExtension =
        .ok (.Extension [0x11] (.Leaf [0x20, 0x01] [0x07])) := by
  refine ⟨(decodes_safely_iff strictReader_lawful _).mpr ?_, rfl⟩
  intro target hreach hempty
  cases hreach with
  | self =>
      have hpath : strictReader.valAt sampleExtension 0 = .ok [0x11] := by decide
      rw [RlpReader.EmptyPath, hpath] at hempty
      cases hempty.2
  | extension hprototype hpath hflag hitem hreach =>
      have hleaf : strictReader.itemAt sampleExtension 1 = .ok [0xc4, 0x82, 0x20, 0x01, 0x07] := by
        decide
      rw [hleaf] at hitem
      cases hitem
      have hleafPath : strictReader.valAt [0xc4, 0x82, 0x20, 0x01, 0x07] 0 = .ok [0x20, 0x01] := by
        decide
      cases hreach with
      | self =>
          rw [RlpReader.EmptyPath, hleafPath] at hempty
          cases hempty.2
      | extension _ hpath hflag _ _ =>
          rw [hleafPath] at hpath
          cases hpath
          cases hflag
      | branch hprototype _ _ _ => cases hprototype
  | branch hprototype _ _ _ => cases hprototype

/-- A list of two empty strings makes the decoder panic. -/
theorem empty_path_panics : ¬DecodesSafely strictReader [0xc2, 0x80, 0x80] := by
  intro h
  exact h.decode rfl

end FluentStf.Mpt
