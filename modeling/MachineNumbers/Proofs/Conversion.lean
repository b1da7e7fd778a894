import Mathlib
import MachineNumbers.Proofs.NaN
import MachineNumbers.Proofs.Order
import MachineNumbers.Proofs.Representable

/-!
# Conversions between formats

A finite number goes to the float of the target format nearest to it, with its sign (`convert_isRounding`), an
infinity to that of its sign, and a NaN to a quiet one whose fraction is the aligned fraction of the source
(`fractionField_convert`): `ConversionRule` says so of one result, and `convert_rounded` that every conversion
follows it.

All numbers of a format are numbers of one with as many exponent and fraction bits (`represents_of_wider`), so
nothing is rounded on the way to it (`extended_convert`) nor on the way back (`convert_convert`), and
`widening_reversible` puts both together.
-/

namespace MachineNumbers

/-- A fraction of `source` bits in a field of `target` bits, its top bit at the top again: low bits are dropped,
or zeros come in below. -/
def alignedFraction (source target fraction : ℕ) : ℕ :=
  if source ≤ target then fraction <<< (target - source) else fraction >>> (source - target)

theorem mul_two_pow_div_two_pow (source target fraction : ℕ) :
    fraction * 2 ^ target / 2 ^ source = alignedFraction source target fraction := by
  unfold alignedFraction
  split
  · next hle =>
    obtain ⟨d, rfl⟩ := Nat.exists_eq_add_of_le hle
    rw [Nat.add_sub_cancel_left, Nat.shiftLeft_eq, pow_add, mul_left_comm,
      Nat.mul_div_cancel_left _ (Nat.two_pow_pos source)]
  · next hlt =>
    obtain ⟨d, rfl⟩ := Nat.exists_eq_add_of_le (not_le.1 hlt).le
    rw [Nat.add_sub_cancel_left, Nat.shiftRight_eq_div_pow, pow_add,
      Nat.mul_comm, Nat.mul_div_mul_left _ _ (Nat.two_pow_pos target)]

/-- There and back, a fraction keeps its bits and gains the top bit that was set on the way. -/
theorem alignedFraction_alignedFraction {source target : ℕ} (hsource : 1 ≤ source) (hle : source ≤ target)
    (fraction : ℕ) :
    alignedFraction target source (alignedFraction source target fraction ||| 2 ^ (target - 1)) =
      fraction ||| 2 ^ (source - 1) := by
  obtain ⟨d, rfl⟩ := Nat.exists_eq_add_of_le hle
  have htop : 2 ^ (source + d - 1) = 2 ^ (source - 1) <<< d := by
    rw [Nat.shiftLeft_eq, ← pow_add]
    congr 1
    omega
  have hwide : alignedFraction source (source + d) fraction = fraction <<< d := by
    rw [alignedFraction, if_pos hle, Nat.add_sub_cancel_left]
  rw [hwide, htop, ← Nat.shiftLeft_or_distrib]
  unfold alignedFraction
  split
  · next hback =>
    obtain rfl : d = 0 := by omega
    simp
  · rw [Nat.add_sub_cancel_left, Nat.shiftLeft_shiftRight]

theorem FloatFormat.bias_le {fmt target : FloatFormat} (hexponent : fmt.exponentBits ≤ target.exponentBits) :
    fmt.bias ≤ target.bias := by
  have hpow : 2 ^ (fmt.exponentBits - 1) ≤ 2 ^ (target.exponentBits - 1) :=
    Nat.pow_le_pow_right (by decide) (by omega)
  rw [fmt.two_pow_exponentBits_pred, target.two_pow_exponentBits_pred] at hpow
  omega

namespace BinaryFloat

variable {fmt : FloatFormat} {x : BinaryFloat fmt}

/-- What becomes of a float in another format. -/
structure ConversionRule {target : FloatFormat} (x : BinaryFloat fmt) (y : BinaryFloat target) : Prop where
  rounded : x.isFinite = true → IsRounding x.value y
  /-- The sign is kept also of a zero. -/
  sign : y.sign = x.sign
  infinite : x.isInfinite = true → y.isInfinite = true
  /-- A NaN stays one, is quiet and keeps the top of its fraction. -/
  nan : x.isNaN = true → y.isNaN = true ∧ y.isSignalingNaN = false ∧
    y.fractionField = alignedFraction fmt.fractionBits target.fractionBits x.fractionField ||| target.quietBit

/-! ## Numbers -/

theorem convert_of_isFinite (target : FloatFormat) (hx : x.isFinite = true) :
    x.convert target .gradual = roundPack .gradual (x.unpack .gradual) false := by
  simp [convert, isNaN_of_isFinite hx, isInfinite_of_isFinite hx]

theorem convert_of_isInfinite (target : FloatFormat) (hx : x.isInfinite = true) :
    x.convert target .gradual = infinity x.sign := by
  simp [convert, isNaN_of_isInfinite hx, hx]

/-- What is unpacked is the number itself, so it is rounded once. -/
theorem convert_isRounding (target : FloatFormat) (hx : x.isFinite = true) :
    IsRounding x.value (x.convert target .gradual) := by
  rw [convert_of_isFinite target hx]
  exact (standsFor_unpack x).isRounding (unpack_sig_lt_two_pow_128 x) (by simp)

theorem sign_convert (target : FloatFormat) (x : BinaryFloat fmt) :
    (x.convert target .gradual).sign = x.sign := by
  unfold convert
  split_ifs
  · rfl
  · rfl
  · rw [roundPack_sign, unpack_sign]

/-! ## NaNs -/

theorem fractionField_convert (target : FloatFormat) (hx : x.isNaN = true) :
    (x.convert target .gradual).fractionField =
      alignedFraction fmt.fractionBits target.fractionBits x.fractionField ||| target.quietBit := by
  have hlt := scaledFraction_lt_hiddenBit target x
  unfold convert
  rw [if_pos hx, fractionField_quieted, ← mul_two_pow_div_two_pow]
  exact congrArg (· ||| target.quietBit) (fractionField_of_word hlt (word_ofWord_add hlt))

theorem convert_isQuiet (target : FloatFormat) (hx : x.isNaN = true) :
    (x.convert target .gradual).isNaN = true ∧ (x.convert target .gradual).isSignalingNaN = false := by
  have hlt := scaledFraction_lt_hiddenBit target x
  unfold convert
  rw [if_pos hx]
  refine ⟨isNaN_quieted ?_, isSignalingNaN_quieted _⟩
  exact (Nat.le_add_right ..).trans (word_ofWord_add hlt).ge

theorem isNaN_convert (target : FloatFormat) (x : BinaryFloat fmt) :
    (x.convert target .gradual).isNaN = x.isNaN := by
  cases hn : x.isNaN with
  | true => exact (convert_isQuiet target hn).1
  | false =>
    cases hi : x.isInfinite with
    | true =>
      rw [convert_of_isInfinite target hi]
      exact isNaN_of_isInfinite (isInfinite_infinity x.sign)
    | false => exact (convert_isRounding target (isFinite_of_not hn hi)).not_isNaN

/-- Conversion is rounded once: a number goes to the nearest float of the target format, an infinity to an
infinity and a NaN to a quiet one with the top of its fraction, all under the same sign. -/
theorem convert_rounded (target : FloatFormat) (x : BinaryFloat fmt) :
    ConversionRule x (x.convert target .gradual) where
  rounded := convert_isRounding target
  sign := sign_convert target x
  infinite hx := by
    rw [convert_of_isInfinite target hx]
    exact isInfinite_infinity x.sign
  nan hx := ⟨(convert_isQuiet target hx).1, (convert_isQuiet target hx).2, fractionField_convert target hx⟩

/-- A payload that is dropped as a whole does not leave an infinity. -/
example : ((ofBits 0x7f800001 : BinaryFloat .binary32).convert
    { exponentBits := 4, fractionBits := 3 } .gradual).toBits = 0x7c := by decide +kernel

/-! ## Widening -/

section Widening

variable {target : FloatFormat}

/-- All numbers of a format are numbers of a wider one. -/
theorem represents_of_wider (hexponent : fmt.exponentBits ≤ target.exponentBits)
    (hfraction : fmt.fractionBits ≤ target.fractionBits) (hx : x.isFinite = true) :
    target.Represents x.value := by
  have hbias := FloatFormat.bias_le hexponent
  have hbits : fmt.hiddenBit ≤ target.hiddenBit := Nat.pow_le_pow_right (by decide) hfraction
  have hsig := unpack_sig_lt x
  have hexp : target.minExp ≤ (x.unpack .gradual).exp := by
    refine le_trans ?_ (minExp_le_unpack x)
    rw [target.minExp_eq, fmt.minExp_eq]
    omega
  refine FloatFormat.represents_of_sig (by omega) hexp ((abs_value x).trans (magnitude_unpack x)) ?_
  refine (abs_value_lt hx).trans_le (zpow_le_zpow_right₀ (by norm_num) ?_)
  unfold FloatFormat.maxLead
  omega

theorem convert_value (target : FloatFormat) (hx : x.isFinite = true) (h : target.Represents x.value) :
    (x.convert target .gradual).isFinite = true ∧ (x.convert target .gradual).value = x.value :=
  (convert_isRounding target hx).toIsNearestReal.value_eq h

theorem extended_convert (hexponent : fmt.exponentBits ≤ target.exponentBits)
    (hfraction : fmt.fractionBits ≤ target.fractionBits) (hx : x.isNaN = false) :
    (x.convert target .gradual).extended = x.extended := by
  cases hi : x.isInfinite with
  | true =>
    rw [convert_of_isInfinite target hi, extended_of_isInfinite hi,
      extended_of_isInfinite (isInfinite_infinity x.sign)]
    rfl
  | false =>
    have hfinite := isFinite_of_not hx hi
    obtain ⟨hwide, hvalue⟩ := convert_value target hfinite (represents_of_wider hexponent hfraction hfinite)
    rw [extended_of_isFinite hwide, extended_of_isFinite hfinite, hvalue]

/-- There and back, a number is the same again, and a NaN is the quiet one. -/
theorem convert_convert (hexponent : fmt.exponentBits ≤ target.exponentBits)
    (hfraction : fmt.fractionBits ≤ target.fractionBits) (x : BinaryFloat fmt) :
    (x.convert target .gradual).convert fmt .gradual = if x.isNaN then x.quieted else x := by
  have hsign : ((x.convert target .gradual).convert fmt .gradual).sign = x.sign :=
    (sign_convert fmt _).trans (sign_convert target x)
  split
  · next hnan =>
    have hwide := (convert_isQuiet target hnan).1
    have hback := (convert_isQuiet fmt hwide).1
    have hquiet := isNaN_quieted ((isNaN_iff_word x).1 hnan).le
    refine ext_word hsign ?_
    rw [word_of_isNaN hback, word_of_isNaN hquiet, fractionField_convert fmt hwide,
      fractionField_convert target hnan, fractionField_quieted]
    have halign : alignedFraction target.fractionBits fmt.fractionBits
        (alignedFraction fmt.fractionBits target.fractionBits x.fractionField ||| target.quietBit) =
          x.fractionField ||| fmt.quietBit :=
      alignedFraction_alignedFraction fmt.one_le_fractionBits hfraction x.fractionField
    rw [halign, Nat.or_assoc, Nat.or_self]
  · next hnan =>
    cases hi : x.isInfinite with
    | true =>
      rw [convert_of_isInfinite target hi, convert_of_isInfinite fmt (isInfinite_infinity _)]
      exact (eq_infinity_of_isInfinite hi).symm
    | false =>
      have hfinite := isFinite_of_not (by simpa using hnan) hi
      obtain ⟨hwide, hvalue⟩ := convert_value target hfinite (represents_of_wider hexponent hfraction hfinite)
      have hback := convert_value fmt hwide ⟨x, hfinite, hvalue.symm⟩
      exact eq_of_value_eq hsign (hback.2.trans hvalue)

/-- A wider format holds every number as it is, and gives back its bits; those of a NaN come back with the
quiet bit set. -/
theorem widening_reversible (hexponent : fmt.exponentBits ≤ target.exponentBits)
    (hfraction : fmt.fractionBits ≤ target.fractionBits) (x : BinaryFloat fmt) :
    let wide := x.convert target .gradual
    let back := wide.convert fmt .gradual
    (x.isNaN = false → wide.isNaN = false ∧ wide.extended = x.extended ∧ wide.sign = x.sign ∧
      back.toBits = x.toBits) ∧
    (x.isNaN = true → wide.isNaN = true ∧ back.toBits = x.toBits ||| fmt.quietBit) := by
  intro wide back
  have hback : back = if x.isNaN then x.quieted else x := convert_convert hexponent hfraction x
  refine ⟨fun hnumber => ?_, fun hnan => ?_⟩
  · rw [if_neg (by simp [hnumber])] at hback
    exact ⟨(isNaN_convert target x).trans hnumber, extended_convert hexponent hfraction hnumber,
      sign_convert target x, congrArg toBits hback⟩
  · rw [if_pos hnan] at hback
    exact ⟨(isNaN_convert target x).trans hnan, (congrArg toBits hback).trans (toBits_quieted x)⟩

/-- The least subnormal number is normal in the wider format, and a signaling NaN is quiet there. -/
theorem widening_reversible_least :
    let x : BinaryFloat .binary32 := -leastNonzero
    let n : BinaryFloat .binary32 := ofBits 0xffa00001
    (FloatFormat.binary32.exponentBits ≤ FloatFormat.binary64.exponentBits ∧
      FloatFormat.binary32.fractionBits ≤ FloatFormat.binary64.fractionBits) ∧
    (x.isNaN = false ∧ (x.convert .binary64 .gradual).toBits = 0xb6a0000000000000 ∧
      (x.convert .binary64 .gradual).extended = x.extended ∧
      ((x.convert .binary64 .gradual).convert .binary32 .gradual).toBits = 0x80000001) ∧
    (n.isNaN = true ∧ (n.convert .binary64 .gradual).toBits = 0xfffc000020000000 ∧
      ((n.convert .binary64 .gradual).convert .binary32 .gradual).toBits = 0xffe00001) := by
  intro x n
  have hexponent : FloatFormat.binary32.exponentBits ≤ FloatFormat.binary64.exponentBits := by decide
  have hfraction : FloatFormat.binary32.fractionBits ≤ FloatFormat.binary64.fractionBits := by decide
  have hx : x.isNaN = false := by decide +kernel
  have hn : n.isNaN = true := by decide +kernel
  obtain ⟨-, hvalue, -, hback⟩ := (widening_reversible hexponent hfraction x).1 hx
  obtain ⟨-, hquiet⟩ := (widening_reversible hexponent hfraction n).2 hn
  exact ⟨⟨hexponent, hfraction⟩,
    ⟨hx, by decide +kernel, hvalue, hback.trans (by decide +kernel)⟩,
    ⟨hn, by decide +kernel, hquiet.trans (by decide +kernel)⟩⟩

end Widening

end BinaryFloat

end MachineNumbers
