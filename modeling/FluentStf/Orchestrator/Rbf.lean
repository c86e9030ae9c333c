import FluentStf.Orchestrator.Finality

/-! The loop of a dispatch worker after its transaction was sent. In every interval in which
the transaction was not mined, the worker raises both fees and sends it again. A node takes
the new transaction in place of the old one only if both fees went up by an eighth. -/
namespace FluentStf.Orchestrator

/-- The two fees of a transaction, of type `u128` in the source. -/
structure Fees where
  maxFee : Nat
  tip : Nat
deriving DecidableEq

/-- `u128::saturating_mul`. -/
def saturatingMul (a b : Nat) : Nat := min (a * b) (2 ^ 128 - 1)

/-- The new fees, and whether the fee reached the cap. -/
def bumpFees (fees : Fees) (bumpPercent cap : Nat) : Fees × Bool :=
  let factor := 100 + bumpPercent
  let newFee := saturatingMul fees.maxFee factor / 100
  let newTip := saturatingMul fees.tip factor / 100
  let clamped := decide (cap ≤ newFee)
  let newFee := min newFee cap
  (⟨newFee, min newTip newFee⟩, clamped)

/-- Receipt of a transaction that may be in no block yet. -/
structure TxReceipt where
  blockNumber : Option Nat
  status : Bool
  gasUsed : Nat
deriving DecidableEq

inductive ReceiptAnswer where
  | failed
  | missing
  | found (receipt : TxReceipt)
deriving DecidableEq

/-- What the node says to a transaction that is sent. -/
inductive BroadcastAnswer where
  | accepted (txHash : B256)
  | nonceTooLow
  | failed
deriving DecidableEq

/-- What the worker meets in one interval. -/
structure RbfAnswers where
  cancelled : Bool
  now : Nat
  receipt : ReceiptAnswer
  /-- The main loop still takes the message that the cap was reached. -/
  capSent : Bool
  broadcast : BroadcastAnswer
  /-- The main loop still takes the message with the new hash. -/
  bumpedSent : Bool
  /-- The second look at the receipt, after an answer that the nonce is too low. -/
  receiptAfter : ReceiptAnswer
deriving DecidableEq

structure RbfConfig where
  bumpPercent : Nat
  maxFeeCap : Nat
  gasLimit : Nat
deriving DecidableEq

/-- The local variables of the loop. -/
structure RbfLoop where
  fees : Fees
  currentHash : B256
  atCapLogged : Bool
  stuckAtCapSince : Option Nat
deriving DecidableEq

/-- A transaction that was sent again, with the fees before. -/
structure Rebroadcast where
  previous : Fees
  next : Fees
  clamped : Bool
deriving DecidableEq

def stuckAtCapTimeout : Nat := 300

namespace RbfLoop

/-- The state before the first interval. -/
def enter (config : RbfConfig) (fees : Fees) (txHash : B256) (now : Nat) : RbfLoop :=
  let atCapLogged := decide (config.maxFeeCap ≤ fees.maxFee)
  ⟨fees, txHash, atCapLogged, if atCapLogged then some now else none⟩

/-- The outcome for a mined transaction, unless its block is still unknown. -/
def mined (config : RbfConfig) (txHash : B256) (receipt : TxReceipt) : Option DispatchOutcome :=
  receipt.blockNumber.map fun l1Block =>
    if receipt.status then .submitted txHash l1Block
    else .reverted txHash (classifyRevert receipt.gasUsed config.gasLimit)

/-- The fees are raised. -/
def bump (config : RbfConfig) (w : RbfLoop) (now : Nat) : RbfLoop × Rebroadcast :=
  let (next, clamped) := bumpFees w.fees config.bumpPercent config.maxFeeCap
  ({ w with
      fees := next
      atCapLogged := w.atCapLogged || clamped
      stuckAtCapSince := if clamped then w.stuckAtCapSince.or (some now) else w.stuckAtCapSince },
    ⟨w.fees, next, clamped⟩)

/-- What follows the answer to the new transaction. -/
def afterBroadcast (config : RbfConfig) (w : RbfLoop) (answers : RbfAnswers) :
    RbfLoop × Option DispatchOutcome :=
  match answers.broadcast with
  | .accepted newHash =>
      ({ w with currentHash := newHash }, if answers.bumpedSent then none else some .failed)
  | .nonceTooLow =>
      match answers.receiptAfter with
      | .found receipt => (w, mined config w.currentHash receipt)
      | .missing | .failed => (w, some .failed)
  | .failed => (w, none)

/-- The fees are raised and the transaction is sent again. It is not sent if the main loop
does not take the message that the cap was reached. -/
def rebroadcast (config : RbfConfig) (w : RbfLoop) (answers : RbfAnswers) :
    RbfLoop × Option Rebroadcast × Option DispatchOutcome :=
  let (bumped, sent) := w.bump config answers.now
  if sent.clamped ∧ w.atCapLogged = false ∧ answers.capSent = false then
    (bumped, none, some .failed)
  else
    let (next, outcome) := bumped.afterBroadcast config answers
    (next, some sent, outcome)

/-- One interval: the state after it, the transaction sent in it, and the outcome if the
worker is done. -/
def round (config : RbfConfig) (w : RbfLoop) (answers : RbfAnswers) :
    RbfLoop × Option Rebroadcast × Option DispatchOutcome :=
  if answers.cancelled then (w, none, some .failed)
  else match answers.receipt with
    | .found receipt => (w, none, mined config w.currentHash receipt)
    | .failed => (w, none, none)
    | .missing =>
        match w.stuckAtCapSince with
        | some since =>
            if stuckAtCapTimeout ≤ answers.now - since then (w, none, some .failed)
            else w.rebroadcast config answers
        | none => w.rebroadcast config answers

/-- All transactions that a worker sends again, until it is done. -/
def rebroadcasts (config : RbfConfig) : RbfLoop → List RbfAnswers → List Rebroadcast
  | _, [] => []
  | w, answers :: rest =>
      let (next, sent, outcome) := w.round config answers
      sent.toList ++ (if outcome.isSome then [] else rebroadcasts config next rest)

end RbfLoop

namespace Fees

/-- Fees that a worker can go on from. -/
structure Valid (cap : Nat) (fees : Fees) : Prop where
  one_le_tip : 1 ≤ fees.tip
  tip_le : fees.tip ≤ fees.maxFee
  le_cap : fees.maxFee ≤ cap

/-- Both fees went up by an eighth. -/
structure Replaces (previous next : Fees) : Prop where
  maxFee : 1125 * previous.maxFee ≤ 1000 * next.maxFee
  tip : 1125 * previous.tip ≤ 1000 * next.tip

/-- What a bump should give. -/
structure ValidBump (fees : Fees) (bumpPercent cap : Nat) (next : Fees) (clamped : Bool) :
    Prop where
  tip_le : next.tip ≤ next.maxFee
  le_cap : next.maxFee ≤ cap
  maxFee_le : fees.maxFee ≤ next.maxFee
  le_tip : fees.tip ≤ next.tip
  clamped_iff : clamped = true ↔ cap ≤ fees.maxFee * (100 + bumpPercent) / 100
  replaces : clamped = false → fees.Replaces next

/-- Nine eighths of the value, rounded up to a whole number, are not above the value with the
percentage added. -/
def EighthFits (bumpPercent value : Nat) : Prop :=
  100 * ((9 * value + 7) / 8) ≤ value * (100 + bumpPercent)

instance (bumpPercent value : Nat) : Decidable (EighthFits bumpPercent value) :=
  inferInstanceAs (Decidable (_ ≤ _))

/-- From 175 wei on rounding plays no role. -/
theorem eighthFits_of_le {bumpPercent value : Nat} (hpercent : 13 ≤ bumpPercent)
    (hvalue : 175 ≤ value) : EighthFits bumpPercent value := by
  have hscaled : value * 113 ≤ value * (100 + bumpPercent) := Nat.mul_le_mul_left _ (by omega)
  unfold EighthFits
  omega

/-- Rounding down after the bump leaves an eighth exactly if the eighth fits. -/
theorem eighth_le_iff {bumpPercent value : Nat} :
    1125 * value ≤ 1000 * (value * (100 + bumpPercent) / 100) ↔
      EighthFits bumpPercent value := by
  unfold EighthFits
  generalize value * (100 + bumpPercent) = scaled
  omega

end Fees

section Bump

open Fees

variable {fees : Fees} {bumpPercent cap : Nat}

theorem saturatingMul_of_lt {a b : Nat} (h : a * b < 2 ^ 128) : saturatingMul a b = a * b :=
  Nat.min_eq_left (by omega)

theorem bumpFees_eq (htip : fees.tip ≤ fees.maxFee)
    (hproduct : fees.maxFee * (100 + bumpPercent) < 2 ^ 128) :
    bumpFees fees bumpPercent cap =
      (⟨min (fees.maxFee * (100 + bumpPercent) / 100) cap,
          min (fees.tip * (100 + bumpPercent) / 100)
            (min (fees.maxFee * (100 + bumpPercent) / 100) cap)⟩,
        decide (cap ≤ fees.maxFee * (100 + bumpPercent) / 100)) := by
  have htipProduct : fees.tip * (100 + bumpPercent) < 2 ^ 128 :=
    (Nat.mul_le_mul_right _ htip).trans_lt hproduct
  simp only [bumpFees, saturatingMul_of_lt hproduct, saturatingMul_of_lt htipProduct]

theorem bumpFees_clamped (htip : fees.tip ≤ fees.maxFee)
    (hproduct : fees.maxFee * (100 + bumpPercent) < 2 ^ 128) :
    (bumpFees fees bumpPercent cap).2 = false ↔
      fees.maxFee * (100 + bumpPercent) < 100 * cap := by
  rw [bumpFees_eq htip hproduct, decide_eq_false_iff_not]
  omega

theorem bumpFees_clamped_of_lt (h : (bumpFees fees bumpPercent cap).1.maxFee < cap) :
    (bumpFees fees bumpPercent cap).2 = false := by
  simp only [bumpFees, decide_eq_false_iff_not] at h ⊢
  omega

/-- Below the cap, the new fees replace the old ones exactly if the eighth fits in both. -/
theorem replaces_bumpFees_iff (htip : fees.tip ≤ fees.maxFee)
    (hproduct : fees.maxFee * (100 + bumpPercent) < 2 ^ 128)
    (hclamped : (bumpFees fees bumpPercent cap).2 = false) :
    fees.Replaces (bumpFees fees bumpPercent cap).1 ↔
      EighthFits bumpPercent fees.maxFee ∧ EighthFits bumpPercent fees.tip := by
  have hcap := (bumpFees_clamped htip hproduct).mp hclamped
  have htipProduct : fees.tip * (100 + bumpPercent) ≤ fees.maxFee * (100 + bumpPercent) :=
    Nat.mul_le_mul_right _ htip
  have hfee : (bumpFees fees bumpPercent cap).1 =
      ⟨fees.maxFee * (100 + bumpPercent) / 100, fees.tip * (100 + bumpPercent) / 100⟩ := by
    rw [bumpFees_eq htip hproduct, Fees.mk.injEq]
    constructor <;> omega
  rw [hfee, ← eighth_le_iff, ← eighth_le_iff]
  exact ⟨fun h => ⟨h.maxFee, h.tip⟩, fun h => ⟨h.1, h.2⟩⟩

/-- Apart from the eighth, a bump always gives what it should. -/
theorem validBump_iff (hfees : fees.Valid cap)
    (hproduct : fees.maxFee * (100 + bumpPercent) < 2 ^ 128) :
    fees.ValidBump bumpPercent cap (bumpFees fees bumpPercent cap).1
        (bumpFees fees bumpPercent cap).2 ↔
      ((bumpFees fees bumpPercent cap).2 = false →
        fees.Replaces (bumpFees fees bumpPercent cap).1) := by
  refine ⟨ValidBump.replaces, fun hreplaces => ?_⟩
  have hmaxFee : fees.maxFee * 100 ≤ fees.maxFee * (100 + bumpPercent) :=
    Nat.mul_le_mul_left _ (by omega)
  have htip : fees.tip * 100 ≤ fees.tip * (100 + bumpPercent) := Nat.mul_le_mul_left _ (by omega)
  have hle := hfees.tip_le
  have hcap := hfees.le_cap
  refine ⟨?_, ?_, ?_, ?_, ?_, hreplaces⟩ <;> rw [bumpFees_eq hle hproduct]
  · exact min_le_right ..
  · exact min_le_right ..
  · show fees.maxFee ≤ min _ _
    omega
  · show fees.tip ≤ min _ _
    omega
  · exact decide_eq_true_iff

theorem hundred_le_saturatingMul {value : Nat} (hvalue : 1 ≤ value) :
    100 ≤ saturatingMul value (100 + bumpPercent) := by
  have hscaled : 1 * (100 + bumpPercent) ≤ value * (100 + bumpPercent) :=
    Nat.mul_le_mul_right _ hvalue
  unfold saturatingMul
  omega

/-- A worker can go on from bumped fees, also where a product saturates. -/
theorem bumpFees_valid (hfees : fees.Valid cap) : (bumpFees fees bumpPercent cap).1.Valid cap where
  one_le_tip := by
    have hpositive := hfees.one_le_tip
    have hmaxFee := @hundred_le_saturatingMul bumpPercent _ (hpositive.trans hfees.tip_le)
    have htip := @hundred_le_saturatingMul bumpPercent _ hpositive
    have hcap := hfees.le_cap
    have hle := hfees.tip_le
    simp only [bumpFees]
    omega
  tip_le := min_le_right ..
  le_cap := min_le_right ..

end Bump

namespace RbfLoop

variable {config : RbfConfig} {w : RbfLoop} {answers : RbfAnswers}

/-- A transaction that this worker sends again has the bumped fees. -/
structure FromBump (config : RbfConfig) (sent : Rebroadcast) : Prop where
  previous : sent.previous.Valid config.maxFeeCap
  bumped : bumpFees sent.previous config.bumpPercent config.maxFeeCap = (sent.next, sent.clamped)

theorem afterBroadcast_fees : (w.afterBroadcast config answers).1.fees = w.fees := by
  unfold afterBroadcast
  split
  · rfl
  · split <;> rfl
  · rfl

theorem rebroadcast_eq :
    w.rebroadcast config answers =
      if (w.bump config answers.now).2.clamped ∧ w.atCapLogged = false ∧
          answers.capSent = false then
        ((w.bump config answers.now).1, none, some .failed)
      else
        (((w.bump config answers.now).1.afterBroadcast config answers).1,
          some (w.bump config answers.now).2,
          ((w.bump config answers.now).1.afterBroadcast config answers).2) := rfl

theorem rebroadcast_spec (hfees : w.fees.Valid config.maxFeeCap) :
    (w.rebroadcast config answers).1.fees.Valid config.maxFeeCap ∧
      ∀ sent ∈ (w.rebroadcast config answers).2.1, FromBump config sent := by
  have hbumped : (w.bump config answers.now).1.fees.Valid config.maxFeeCap := bumpFees_valid hfees
  rw [rebroadcast_eq]
  split
  · exact ⟨hbumped, by simp⟩
  · refine ⟨?_, fun sent hsent => ?_⟩
    · rw [afterBroadcast_fees]
      exact hbumped
    · cases hsent
      exact ⟨hfees, rfl⟩

/-- What one interval does to the fees. -/
theorem round_spec (hfees : w.fees.Valid config.maxFeeCap) :
    (w.round config answers).1.fees.Valid config.maxFeeCap ∧
      ∀ sent ∈ (w.round config answers).2.1, FromBump config sent := by
  have hkept : ∀ outcome : Option DispatchOutcome,
      (w, (none : Option Rebroadcast), outcome).1.fees.Valid config.maxFeeCap ∧
        ∀ sent ∈ (w, (none : Option Rebroadcast), outcome).2.1, FromBump config sent :=
    fun outcome => ⟨hfees, by simp⟩
  unfold round
  split
  · exact hkept _
  · split
    · exact hkept _
    · exact hkept _
    · split
      · split
        · exact hkept _
        · exact rebroadcast_spec hfees
      · exact rebroadcast_spec hfees

theorem rebroadcasts_cons (rest : List RbfAnswers) :
    w.rebroadcasts config (answers :: rest) = (w.round config answers).2.1.toList ++
      if (w.round config answers).2.2.isSome then []
      else (w.round config answers).1.rebroadcasts config rest := rfl

theorem rebroadcasts_fromBump {rounds : List RbfAnswers} (hfees : w.fees.Valid config.maxFeeCap) :
    ∀ sent ∈ w.rebroadcasts config rounds, FromBump config sent := by
  induction rounds generalizing w with
  | nil => simp [rebroadcasts]
  | cons answers rest ih =>
      obtain ⟨hnext, hsent⟩ := @round_spec config w answers hfees
      intro sent hmem
      rw [rebroadcasts_cons] at hmem
      obtain hmem | hmem := List.mem_append.mp hmem
      · exact hsent sent (Option.mem_toList.mp hmem)
      · split at hmem
        · cases hmem
        · exact ih hnext sent hmem

end RbfLoop

open Fees in
/-- A bump is a valid replacement exactly if the cap is reached or the eighth fits in both
fees, and so is everything that a worker sends again below the cap. -/
theorem bump_valid_iff {fees : Fees} {bumpPercent cap : Nat} (hfees : fees.Valid cap)
    (hproduct : fees.maxFee * (100 + bumpPercent) < 2 ^ 128) :
    (fees.ValidBump bumpPercent cap (bumpFees fees bumpPercent cap).1
        (bumpFees fees bumpPercent cap).2 ↔
      100 * cap ≤ fees.maxFee * (100 + bumpPercent) ∨
        EighthFits bumpPercent fees.maxFee ∧ EighthFits bumpPercent fees.tip) ∧
    ∀ (gasLimit : Nat) (w : RbfLoop) (rounds : List RbfAnswers), w.fees = fees →
      ∀ sent ∈ w.rebroadcasts ⟨bumpPercent, cap, gasLimit⟩ rounds,
        sent.next.maxFee < cap → sent.previous.maxFee * (100 + bumpPercent) < 2 ^ 128 →
        (sent.previous.Replaces sent.next ↔
          EighthFits bumpPercent sent.previous.maxFee ∧
            EighthFits bumpPercent sent.previous.tip) := by
  constructor
  · have hclamped := @bumpFees_clamped fees bumpPercent cap hfees.tip_le hproduct
    rw [validBump_iff hfees hproduct]
    constructor
    · intro hreplaces
      by_cases hcap : 100 * cap ≤ fees.maxFee * (100 + bumpPercent)
      · exact .inl hcap
      · have hbelow := hclamped.mpr (by omega)
        exact .inr ((replaces_bumpFees_iff hfees.tip_le hproduct hbelow).mp (hreplaces hbelow))
    · rintro (hcap | hfits) hbelow
      · have hlt := hclamped.mp hbelow
        omega
      · exact (replaces_bumpFees_iff hfees.tip_le hproduct hbelow).mpr hfits
  · rintro gasLimit w rounds rfl sent hsent hbelow hlt
    have hfrom := RbfLoop.rebroadcasts_fromBump hfees sent hsent
    have hbumped : bumpFees sent.previous bumpPercent cap = (sent.next, sent.clamped) :=
      hfrom.bumped
    have hclamped : (bumpFees sent.previous bumpPercent cap).2 = false :=
      bumpFees_clamped_of_lt (by rw [hbumped]; exact hbelow)
    have hiff := replaces_bumpFees_iff hfrom.previous.tip_le hlt hclamped
    rw [hbumped] at hiff
    exact hiff

section Sample

open Fees

/-- 20 percent on fees of 1 and 0.1 gwei, with a cap of 500 gwei. -/
theorem bump_valid_gwei :
    ValidBump ⟨1000000000, 100000000⟩ 20 500000000000 ⟨1200000000, 120000000⟩ false :=
  (bump_valid_iff ⟨by decide, by decide, by decide⟩ (by decide)).1.mpr
    (.inr ⟨eighthFits_of_le (by decide) (by decide), eighthFits_of_le (by decide) (by decide)⟩)

/-- A tip of 1 wei stays at 1 wei, in the bump and in what a worker sends again. -/
theorem small_tip_not_bumped :
    Valid 500000000000 ⟨1000000000, 1⟩ ∧ 1000000000 * (100 + 20) < 2 ^ 128 ∧
      bumpFees ⟨1000000000, 1⟩ 20 500000000000 = (⟨1200000000, 1⟩, false) ∧
      ¬ ValidBump ⟨1000000000, 1⟩ 20 500000000000 ⟨1200000000, 1⟩ false ∧
      (RbfLoop.enter ⟨20, 500000000000, 100000⟩ ⟨1000000000, 1⟩ .zero 0).rebroadcasts
          ⟨20, 500000000000, 100000⟩
          [⟨false, 15, .missing, true, .accepted (.ofNat 1), true, .missing⟩] =
        [⟨⟨1000000000, 1⟩, ⟨1200000000, 1⟩, false⟩] := by
  refine ⟨⟨by decide, by decide, by decide⟩, by decide, by decide, fun h => ?_, by decide⟩
  have htip := (h.replaces rfl).tip
  exact absurd htip (by decide)

end Sample

end FluentStf.Orchestrator
