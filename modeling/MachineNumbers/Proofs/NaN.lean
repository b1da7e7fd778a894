import Mathlib
import MachineNumbers.BinaryFloat.Integral
import MachineNumbers.BinaryFloat.Neighbour
import MachineNumbers.BinaryFloat.Order
import MachineNumbers.Proofs.Flushing

/-!
# The rule for NaNs

The first NaN among the operands goes through an operation with nothing changed but its quiet bit, which is
set.  Where there is none, an invalid operation gives `BinaryFloat.nan` and every other one a number or an
infinity.  `NaNRule` says so of one result, and `nan_rule` that arithmetic in either mode, the lesser and the
greater of two numbers, the neighbours and the integral numbers all follow it.
-/

namespace MachineNumbers

namespace FloatFormat

variable (fmt : FloatFormat)

theorem quietBit_lt_hiddenBit : fmt.quietBit < fmt.hiddenBit := by
  have := fmt.one_le_fractionBits
  exact Nat.pow_lt_pow_right (by decide) (by omega)

/-- The fractions lie below the word of infinity. -/
theorem infinityWord_or {fraction : ℕ} (h : fraction < fmt.hiddenBit) :
    fmt.infinityWord ||| fraction = fmt.infinityWord + fraction := by
  have hadd := Nat.two_pow_add_eq_or_of_lt h fmt.exponentMask
  rw [Nat.mul_comm] at hadd
  exact hadd.symm

theorem infinityWord_or_quietBit :
    fmt.infinityWord ||| fmt.quietBit = fmt.infinityWord + fmt.quietBit :=
  fmt.infinityWord_or fmt.quietBit_lt_hiddenBit

/-- The payload lies below the quiet bit. -/
theorem quietBit_and_maxPayload : fmt.quietBit &&& fmt.maxPayload = 0 := by
  have hpos : 0 < fmt.quietBit := Nat.two_pow_pos _
  have hlt : fmt.maxPayload < fmt.quietBit := by
    unfold maxPayload
    omega
  have hbit := Nat.testBit_lt_two_pow hlt
  have := Nat.two_pow_and fmt.maxPayload (fmt.fractionBits - 1)
  rw [hbit] at this
  exact this

end FloatFormat

namespace BinaryFloat

variable {fmt : FloatFormat} {x y : BinaryFloat fmt} {mode : SubnormalMode}

/-! ## Quiet NaNs -/

/-- Quieting sets one bit. -/
theorem word_quieted (x : BinaryFloat fmt) : x.quieted.word = x.word ||| fmt.quietBit := by
  have hquiet : fmt.quietBit < fmt.signWeight :=
    Nat.pow_lt_pow_right (by decide) (by have := fmt.one_le_fractionBits; omega)
  exact Nat.mod_eq_of_lt (Nat.or_lt_two_pow x.word_lt hquiet)

theorem toBits_quieted (x : BinaryFloat fmt) : x.quieted.toBits = x.toBits ||| fmt.quietBit := by
  show (if x.sign then fmt.signWeight else 0) + x.quieted.word = _
  rw [toBits]
  cases x.sign
  · simp [word_quieted]
  · rw [if_pos rfl, fmt.signWeight_add_eq_or x.quieted.word_lt, fmt.signWeight_add_eq_or x.word_lt,
      word_quieted, Nat.or_assoc]

theorem fractionField_quieted (x : BinaryFloat fmt) :
    x.quieted.fractionField = x.fractionField ||| fmt.quietBit := by
  have hquiet : fmt.quietBit % 2 ^ fmt.fractionBits = fmt.quietBit :=
    Nat.mod_eq_of_lt fmt.quietBit_lt_hiddenBit
  unfold fractionField
  rw [word_quieted, Nat.pow_eq, Nat.or_mod_two_pow, hquiet]

/-- The payload is below the quiet bit, which leaves it alone. -/
theorem payload_quieted (x : BinaryFloat fmt) : x.quieted.payload = x.payload := by
  unfold payload
  rw [fractionField_quieted, Nat.and_or_distrib_right, fmt.quietBit_and_maxPayload, Nat.or_zero]

theorem isNaN_iff_word (x : BinaryFloat fmt) : x.isNaN = true ↔ fmt.infinityWord < x.word := by
  simp [isNaN]

/-- The words past infinity hold the fractions. -/
theorem word_ofWord_add {sign : Bool} {fraction : ℕ} (h : fraction < fmt.hiddenBit) :
    (ofWord sign (fmt.infinityWord + fraction) : BinaryFloat fmt).word = fmt.infinityWord + fraction := by
  refine Nat.mod_eq_of_lt ?_
  rw [fmt.signWeight_eq]
  omega

theorem fractionField_of_word {fraction : ℕ} (h : fraction < fmt.hiddenBit)
    (hx : x.word = fmt.infinityWord + fraction) : x.fractionField = fraction := by
  show x.word % fmt.hiddenBit = fraction
  rw [hx, fmt.infinityWord_eq, Nat.add_comm, Nat.add_mul_mod_self_right, Nat.mod_eq_of_lt h]

theorem word_of_isNaN (h : x.isNaN = true) : x.word = fmt.infinityWord + x.fractionField := by
  have hlow := (isNaN_iff_word x).1 h
  have hhigh := x.word_lt
  rw [fmt.signWeight_eq] at hhigh
  obtain ⟨fraction, hfraction⟩ := Nat.exists_eq_add_of_lt hlow
  have hfield : x.fractionField = fraction + 1 := fractionField_of_word (by omega) hfraction
  rw [hfield]
  exact hfraction

/-- A fraction that is scaled to another format fits in its fraction field. -/
theorem scaledFraction_lt_hiddenBit (target : FloatFormat) (x : BinaryFloat fmt) :
    x.fractionField * 2 ^ target.fractionBits / 2 ^ fmt.fractionBits < target.hiddenBit :=
  Nat.div_lt_of_lt_mul
    (Nat.mul_lt_mul_of_pos_right (Nat.mod_lt _ (Nat.two_pow_pos _)) (Nat.two_pow_pos _))

/-- From infinity on, a word with its quiet bit set is that of a NaN. -/
theorem isNaN_quieted (h : fmt.infinityWord ≤ x.word) : x.quieted.isNaN = true := by
  have hpos : 0 < fmt.quietBit := Nat.two_pow_pos _
  rw [isNaN_iff_word, word_quieted]
  rcases h.eq_or_lt with heq | hlt
  · rw [← heq, fmt.infinityWord_or_quietBit]
    omega
  · exact hlt.trans_le Nat.left_le_or

/-- A quieted operand signals no more. -/
theorem isSignalingNaN_quieted (x : BinaryFloat fmt) : x.quieted.isSignalingNaN = false := by
  have hpos : fmt.quietBit ≠ 0 := (Nat.two_pow_pos _).ne'
  unfold isSignalingNaN
  rw [fractionField_quieted, Nat.and_or_distrib_right, Nat.and_self, Bool.and_eq_false_iff,
    beq_eq_false_iff_ne]
  exact Or.inr fun h => hpos (Nat.or_eq_zero_iff.1 h).2

/-- The NaN of invalid operations is the infinity with its quiet bit set. -/
theorem nan_eq_quieted : (nan : BinaryFloat fmt) = (infinity false).quieted := by
  unfold quieted infinity
  rw [word_ofWord le_rfl]
  rfl

theorem isNaN_nan : (nan : BinaryFloat fmt).isNaN = true := by
  rw [nan_eq_quieted]
  exact isNaN_quieted (word_ofWord le_rfl).ge

theorem isSignalingNaN_of_not_isNaN (h : x.isNaN = false) : x.isSignalingNaN = false := by
  simp [isSignalingNaN, h]

/-! ## What is no NaN -/

theorem isNaN_ofWord {sign : Bool} {word : Nat} (h : word ≤ fmt.infinityWord) :
    (ofWord sign word : BinaryFloat fmt).isNaN = false := by
  rw [isNaN_eq_false_iff, word_ofWord h]
  exact h

theorem isNaN_zero (sign : Bool) : (zero sign : BinaryFloat fmt).isNaN = false :=
  (isNaN_eq_false_iff _).2 (Nat.zero_le _)

/-- Rounding a number never makes a NaN. -/
theorem isNaN_roundPack (mode : SubnormalMode) (u : Unpacked) (sticky : Bool) :
    (roundPack mode u sticky : BinaryFloat fmt).isNaN = false := by
  unfold roundPack
  split
  · exact isNaN_zero _
  split
  · exact isNaN_zero _
  · exact isNaN_ofWord (Nat.min_le_right ..)

/-! ## The rule -/

/-- A result that goes by the NaNs among the operands and by whether the operation is invalid. -/
structure NaNRule (operands : List (BinaryFloat fmt)) (invalid : Prop) (result : BinaryFloat fmt) :
    Prop where
  /-- Nothing changes of the first NaN but its quiet bit. -/
  propagates : ∀ n, operands.find? isNaN = some n →
    result.toBits = n.toBits ||| fmt.quietBit ∧ result.sign = n.sign ∧ result.payload = n.payload
  isNaN_iff : operands.find? isNaN = none → (result.isNaN = true ↔ invalid)
  eq_nan : operands.find? isNaN = none → invalid → result = nan
  isSignalingNaN_eq_false : result.isSignalingNaN = false

namespace NaNRule

variable {xs : List (BinaryFloat fmt)} {invalid : Prop} {n : BinaryFloat fmt}

theorem of_nan (h : xs.find? isNaN = some n) : NaNRule xs invalid n.quieted where
  propagates m hm := by
    obtain rfl : n = m := Option.some_injective _ (h.symm.trans hm)
    exact ⟨toBits_quieted n, rfl, payload_quieted n⟩
  isNaN_iff hnone := absurd (h.symm.trans hnone) (by simp)
  eq_nan hnone := absurd (h.symm.trans hnone) (by simp)
  isSignalingNaN_eq_false := isSignalingNaN_quieted n

theorem of_invalid (hnone : xs.find? isNaN = none) (h : invalid) : NaNRule xs invalid nan where
  propagates _ hn := absurd (hnone.symm.trans hn) (by simp)
  isNaN_iff _ := iff_of_true isNaN_nan h
  eq_nan _ _ := rfl
  isSignalingNaN_eq_false := by
    rw [nan_eq_quieted]
    exact isSignalingNaN_quieted _

theorem of_number (hnone : xs.find? isNaN = none) (h : ¬invalid) (hx : x.isNaN = false) :
    NaNRule xs invalid x where
  propagates _ hn := absurd (hnone.symm.trans hn) (by simp)
  isNaN_iff _ := iff_of_false (by simp [hx]) h
  eq_nan _ hinvalid := absurd hinvalid h
  isSignalingNaN_eq_false := isSignalingNaN_of_not_isNaN hx

end NaNRule

end BinaryFloat

open BinaryFloat

namespace Operation

variable {fmt : FloatFormat}

/-- Flushed operands are invalid where what flushing reads is. -/
theorem invalid_map_flushed (op : Operation fmt) :
    (op.map flushed).Invalid .gradual ↔ op.Invalid .flushToZero := by
  cases op <;>
    simp only [map, Invalid, isInfinite_flushed, sign_flushed, readsAsZero_gradual,
      readsAsZero_flushToZero]

/-- What an operation comes to, by its kind, obeys the rule for NaNs. -/
theorem Outcome.nanRule {op : Operation fmt} {f : SubnormalMode → BinaryFloat fmt} (h : Outcome op f)
    (mode : SubnormalMode) : NaNRule op.operands (op.Invalid .gradual) (f mode) := by
  cases h with
  | propagated hnan =>
    obtain ⟨n, hn, rfl⟩ := Option.map_eq_some_iff.1 hnan
    exact .of_nan hn
  | invalid hnan h _ => exact .of_invalid (Option.map_eq_none_iff.1 hnan) h
  | infinite _ hnan h _ => exact .of_number (Option.map_eq_none_iff.1 hnan) h (isNaN_ofWord le_rfl)
  | zero _ hnan h _ => exact .of_number (Option.map_eq_none_iff.1 hnan) h (isNaN_zero _)
  | packed hnan h => exact .of_number (Option.map_eq_none_iff.1 hnan) h (isNaN_roundPack ..)

/-- Every operation obeys the rule, in both modes. -/
theorem nanRule (op : Operation fmt) (mode : SubnormalMode) :
    NaNRule op.operands (op.Invalid mode) (op.eval mode) := by
  cases mode with
  | gradual =>
    obtain ⟨f, houtcome, heval⟩ := exists_outcome op
    rw [heval .gradual op.plain_gradual]
    exact houtcome.nanRule .gradual
  | flushToZero =>
    obtain ⟨f, houtcome, hflush, -⟩ := op.exists_outcome_flushed
    obtain ⟨hpropagates, hiff, heq, hsignaling⟩ := houtcome.nanRule .flushToZero
    rw [operands_map, find?_isNaN_map_flushed] at hpropagates hiff heq
    rw [invalid_map_flushed] at hiff heq
    rw [hflush]
    exact ⟨hpropagates, hiff, heq, hsignaling⟩

end Operation

namespace BinaryFloat

variable {fmt : FloatFormat} {x y : BinaryFloat fmt} {mode : SubnormalMode}

/-! ## The lesser and the greater number -/

/-- What takes one of two numbers follows the rule and is never invalid. -/
theorem nanRule_of_choice {z : BinaryFloat fmt}
    (hnan : ∀ n, propagatedNaN? [x, y] = some n → z = n)
    (hnone : propagatedNaN? [x, y] = none → z = x ∨ z = y) : NaNRule [x, y] False z := by
  cases h : [x, y].find? isNaN with
  | some n =>
    rw [hnan n.quieted (by rw [propagatedNaN?, h]; rfl)]
    exact .of_nan h
  | none =>
    have hnone' : propagatedNaN? [x, y] = none := Option.map_eq_none_iff.2 h
    refine .of_number h id ?_
    rcases hnone hnone' with rfl | rfl
    · exact propagatedNaN?_eq_none_iff.1 hnone' _ (by simp)
    · exact propagatedNaN?_eq_none_iff.1 hnone' _ (by simp)

theorem minimum_nanRule (x y : BinaryFloat fmt) : NaNRule [x, y] False (x.minimum y) := by
  refine nanRule_of_choice (fun n hn => by simp [minimum, hn]) fun hnone => ?_
  unfold minimum
  rw [hnone]
  simp only
  split_ifs <;> simp

theorem maximum_nanRule (x y : BinaryFloat fmt) : NaNRule [x, y] False (x.maximum y) := by
  refine nanRule_of_choice (fun n hn => by simp [maximum, hn]) fun hnone => ?_
  unfold maximum
  rw [hnone]
  simp only
  split_ifs <;> simp

/-! ## Functions of one number -/

/-- What makes a NaN quiet and numbers of numbers follows the rule and is never invalid. -/
theorem nanRule_of_unary {z : BinaryFloat fmt} (hnan : x.isNaN = true → z = x.quieted)
    (hnumber : x.isNaN = false → z.isNaN = false) : NaNRule [x] False z := by
  cases h : x.isNaN with
  | true =>
    rw [hnan h]
    exact .of_nan (by simp [h])
  | false => exact .of_number (by simp [h]) id (hnumber h)

theorem nextUp_of_isNaN (h : x.isNaN = true) : x.nextUp mode = x.quieted := by simp [nextUp, h]

theorem isNaN_nextUp (mode : SubnormalMode) (h : x.isNaN = false) : (x.nextUp mode).isNaN = false := by
  have hword := (isNaN_eq_false_iff x).1 h
  have hinfinity := fmt.infinityWord_pos
  unfold nextUp
  rw [h]
  simp only [Bool.false_eq_true, if_false]
  split_ifs with _ _ _ _ hi
  · exact isNaN_ofWord (hiddenBit_le_infinityWord fmt)
  · exact isNaN_ofWord hinfinity
  · exact isNaN_zero true
  · exact isNaN_ofWord (by omega)
  · exact h
  · rw [isInfinite_iff_word] at hi
    exact isNaN_ofWord (by omega)

theorem nextUp_nanRule (mode : SubnormalMode) (x : BinaryFloat fmt) :
    NaNRule [x] False (x.nextUp mode) :=
  nanRule_of_unary nextUp_of_isNaN (isNaN_nextUp mode)

theorem nextDown_nanRule (mode : SubnormalMode) (x : BinaryFloat fmt) :
    NaNRule [x] False (x.nextDown mode) := by
  refine nanRule_of_unary (fun h => ?_) fun h => ?_
  · have hneg : (-x).isNaN = true := h
    unfold nextDown
    rw [nextUp_of_isNaN hneg]
    exact ext_word (Bool.not_not x.sign) rfl
  · have hneg : (-x).isNaN = false := h
    exact isNaN_nextUp mode hneg

theorem rounded_nanRule (mode : SubnormalMode) (rule : RoundingRule) (x : BinaryFloat fmt) :
    NaNRule [x] False (x.rounded mode rule) := by
  refine nanRule_of_unary (fun h => by simp [rounded, h]) fun h => ?_
  unfold rounded
  rw [h]
  simp only [Bool.false_eq_true, if_false]
  split_ifs
  · exact h
  · exact isNaN_zero _
  · exact h
  · exact isNaN_roundPack ..

/-- NaNs in either mode: the first one among the operands goes through with its quiet bit set; without one
the result is a NaN in the invalid cases only, and always the same; and no result is a signaling NaN. -/
theorem nan_rule (fmt : FloatFormat) (mode : SubnormalMode) :
    (∀ op : Operation fmt, NaNRule op.operands (op.Invalid mode) (op.eval mode)) ∧
    (∀ x y : BinaryFloat fmt, NaNRule [x, y] False (x.minimum y) ∧ NaNRule [x, y] False (x.maximum y)) ∧
    (∀ x : BinaryFloat fmt, NaNRule [x] False (x.nextUp mode) ∧ NaNRule [x] False (x.nextDown mode) ∧
      ∀ rule, NaNRule [x] False (x.rounded mode rule)) :=
  ⟨fun op => op.nanRule mode, fun x y => ⟨minimum_nanRule x y, maximum_nanRule x y⟩,
    fun x => ⟨nextUp_nanRule mode x, nextDown_nanRule mode x, fun rule => rounded_nanRule mode rule x⟩⟩

/-- Infinity times a subnormal number is an infinity, but invalid where the number reads as a zero. -/
example :
    let x : BinaryFloat .binary32 := infinity true
    x.mul .gradual leastNonzero = x ∧ x.mul .flushToZero leastNonzero = nan := by decide +kernel

end BinaryFloat

end MachineNumbers
