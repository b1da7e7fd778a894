import Mathlib
import MachineNumbers.Proofs.Checked.Packing
import MachineNumbers.Proofs.Decimal.Checked

/-!
# The division of digits by a power of ten is exact

Bit by bit, the division keeps an equation between what is divided, the quotient so far and what is left,
which stays below twice the divisor (`Division.Balanced`).  The divisor is shifted up by one place less than
there are bits, so that in the end the quotient and the remainder are those of the scaled digits and the
scaled power of ten (`Division.run?_shifted`).

The cut-offs bound every word on the way (`Sized.scaled?_represents`); the quotient is rounded down, and a
remainder is left just where it is not exact.  For a decimal that comes to be divided (`Divided`), rounding
them gives its float (`division_exact`).
-/

namespace MachineNumbers.CheckedDecimal

open CheckedLimbs (bitLength?_eq mulPow10?_eq mulPow2?_eq ofNat64?_eq sub?_eq)
open MachineWord

variable {D W n : ℕ} {divisor w : Limbs}

/-! ## The loop -/

namespace Division

/-- Where a division of `W` by `2 × D` stands after `n` bits. -/
structure Balanced (D W n : ℕ) (s : Division) : Prop where
  trimmed : s.rest.Trimmed
  rest_lt : s.rest.toNat < 2 * D
  balance : 2 ^ n * W = 2 * D * s.quotient + s.rest.toNat

namespace Balanced

variable {s : Division}

theorem represents (h : Balanced D W n s) : s.rest.Represents s.rest.toNat := ⟨h.trimmed, rfl⟩

theorem start (hw : w.Represents W) (hW : W < 2 * D) : Balanced D W 0 ⟨0, w⟩ :=
  ⟨hw.trimmed, hw.toNat_eq ▸ hW, by rw [pow_zero, Nat.one_mul, Nat.mul_zero, Nat.zero_add, hw.toNat_eq]⟩

theorem quotient_eq (h : Balanced D W n s) : s.quotient = 2 ^ n * W / (2 * D) := by
  have hpos : 0 < 2 * D := Nat.zero_lt_of_lt h.rest_lt
  rw [h.balance, Nat.mul_add_div hpos, Nat.div_eq_of_lt h.rest_lt, Nat.add_zero]

theorem rest_eq (h : Balanced D W n s) : s.rest.toNat = 2 ^ n * W % (2 * D) := by
  rw [h.balance, Nat.mul_add_mod, Nat.mod_eq_of_lt h.rest_lt]

/-- There is one bit of the quotient for each step. -/
theorem quotient_lt (h : Balanced D W n s) (hW : W < 2 * D) : s.quotient < 2 ^ n := by
  rw [h.quotient_eq, Nat.div_lt_iff_lt_mul (Nat.zero_lt_of_lt hW)]
  exact Nat.mul_lt_mul_of_pos_left hW (Nat.two_pow_pos n)

/-- What is left is brought below the divisor before it is doubled. -/
theorem step (hdivisor : divisor.Represents D) (h : Balanced D W n s) (hword : s.quotient < 2 ^ 127) :
    ∃ t, step? divisor s = some t ∧ Balanced D W (n + 1) t := by
  have hrest := h.rest_lt
  have hdouble : 2 ^ (n + 1) * W = 2 * (2 * D * s.quotient + s.rest.toNat) := by
    rw [← h.balance, pow_succ']
    ring
  unfold step?
  rw [bind_of_some (shiftLeft?_of_bits hword (by decide) (by decide)), CheckedLimbs.compare_eq,
    h.represents.compare hdivisor]
  by_cases hlt : s.rest.toNat < D
  · have hnext := h.represents.mulPow2 1
    rw [if_pos (Nat.compare_eq_lt.2 hlt), bind_of_some (mulPow2?_eq _ _)]
    refine ⟨_, rfl, hnext.trimmed, ?_, ?_⟩
    · rw [hnext.toNat_eq]
      omega
    · rw [hnext.toNat_eq, hdouble, Nat.shiftLeft_eq]
      ring
  · have hle : D ≤ s.rest.toNat := not_lt.1 hlt
    have hnext := (h.represents.sub hdivisor hle).mulPow2 1
    rw [if_neg (mt Nat.compare_eq_lt.1 hlt), bind_of_some (sub?_eq h.represents hdivisor hle),
      bind_of_some (mulPow2?_eq _ _)]
    refine ⟨_, rfl, hnext.trimmed, ?_, ?_⟩
    · rw [hnext.toNat_eq]
      omega
    · have hbit : s.quotient <<< 1 ||| 1 = 2 * s.quotient + 1 := by
        rw [← Nat.shiftLeft_add_eq_or_of_lt (by decide), Nat.shiftLeft_eq, pow_one, Nat.mul_comm]
      have hsplit : 2 * s.rest.toNat = 2 * D + 2 ^ 1 * (s.rest.toNat - D) := by omega
      rw [hnext.toNat_eq, hdouble, hbit, Nat.mul_add, hsplit]
      ring

end Balanced

/-- The word of the quotient holds 128 bits. -/
theorem run?_balanced (hdivisor : divisor.Represents D) (hw : w.Represents W) (hW : W < 2 * D)
    (hn : n ≤ 128) : ∃ s, run? divisor n ⟨0, w⟩ = some s ∧ Balanced D W n s := by
  induction n with
  | zero => exact ⟨_, rfl, .start hw hW⟩
  | succ n ih =>
    obtain ⟨s, hs, hbalanced⟩ := ih (by omega)
    have hword : s.quotient < 2 ^ 127 :=
      (hbalanced.quotient_lt hW).trans_le (Nat.pow_le_pow_right (by decide) (by omega))
    obtain ⟨t, ht, hnext⟩ := hbalanced.step hdivisor hword
    exact ⟨t, by rw [run?, bind_of_some hs, ht], hnext⟩

/-- With the divisor shifted up by one place less than there are bits, quotient and remainder are whole. -/
theorem run?_shifted (hdivisor : divisor.Represents (2 ^ n * D)) (hw : w.Represents W)
    (hW : W < 2 * (2 ^ n * D)) (hn : n < 128) :
    ∃ s, run? divisor (n + 1) ⟨0, w⟩ = some s ∧ s.quotient = W / D ∧
      s.rest.Represents (2 ^ (n + 1) * (W % D)) := by
  have hdouble : 2 * (2 ^ n * D) = 2 ^ (n + 1) * D := by
    rw [pow_succ']
    ring
  obtain ⟨s, hs, hbalanced⟩ := run?_balanced hdivisor hw hW (Nat.succ_le_of_lt hn)
  refine ⟨s, hs, ?_, hbalanced.trimmed, ?_⟩
  · rw [hbalanced.quotient_eq, hdouble, Nat.mul_div_mul_left _ _ (Nat.two_pow_pos _)]
  · rw [hbalanced.rest_eq, hdouble, Nat.mul_mod_mul_left]

end Division

/-! ## Scaling -/

variable {fmt : FloatFormat} {negative : Bool} {d : Decimal}

theorem Sized.scale_bounds (h : Sized fmt d) :
    -2 ^ 30 < d.scale fmt.precision ∧ d.scale fmt.precision < 2 ^ 30 + 2 ^ 16 := by
  have hlength := h.length_le
  have hexp := h.natAbs_exp_lt
  have hfrac := fmt.fractionBits_le
  have hprecision : fmt.precision = fmt.fractionBits + 1 := rfl
  have hsize := size_mantissa_le h.normal
  have hpower := size_ten_pow_le d.exp.natAbs
  have hpos : 0 < Nat.size (10 ^ d.exp.natAbs) := Nat.size_pos.2 (by positivity)
  have hmantissa : 0 < Nat.size d.mantissa := Nat.size_pos.2 (Nat.pos_of_ne_zero h.normal.mantissa_ne_zero)
  unfold Decimal.scale
  omega

/-- What is scaled down is instead what it is divided by, scaled up. -/
theorem Sized.scaled?_represents (h : Sized fmt d) :
    ∃ s, scaled? fmt.precision d d.exp.natAbs = some s ∧ s.scale = d.scale fmt.precision ∧
      s.dividend.Represents (d.dividend fmt.precision) ∧
      s.divisor.Represents (2 ^ (fmt.precision + 5) * d.divisor fmt.precision) := by
  have hlength := h.length_le
  have hexp := h.natAbs_exp_lt
  have hbounds := h.scale_bounds
  have hfrac := fmt.fractionBits_le
  have hprecision : fmt.precision = fmt.fractionBits + 1 := rfl
  have hsize := size_mantissa_le h.normal
  have hpower := size_ten_pow_le d.exp.natAbs
  have hscale : (Nat.size (10 ^ d.exp.natAbs) : ℤ) - Nat.size d.mantissa + fmt.precision + 3 =
      d.scale fmt.precision := rfl
  have hone := Limbs.ofNat64_represents (n := 1) (by decide)
  have hden := hone.mulPow10 d.exp.natAbs
  rw [Nat.mul_one] at hden
  obtain ⟨w, hbig, hw⟩ := big?_represents h.normal.digits_lt
  unfold scaled?
  rw [bind_of_some hbig, bind_of_some (ofNat64?_eq 1), bind_of_some (mulPow10?_eq hone _),
    bind_of_some (bitLength?_eq hden (by omega)), bind_of_some (exponent?_of_bounds (by omega) (by omega)),
    bind_of_some (bitLength?_eq hw (by omega)), bind_of_some (exponent?_of_bounds (by omega) (by omega)),
    bind_of_some (exponent?_of_bounds (by omega) (by omega)),
    bind_of_some (exponent?_of_bounds (by omega) (by omega)),
    bind_of_some (exponent?_of_bounds (by omega) (by omega)), hscale]
  unfold Decimal.dividend Decimal.divisor
  split
  · next hup =>
    rw [bind_of_some (mulPow2?_eq _ _), bind_of_some (mulPow2?_eq _ _)]
    refine ⟨_, rfl, rfl, hw.mulPow2 _, ?_⟩
    rw [Int.toNat_eq_zero.2 (show -d.scale fmt.precision ≤ 0 by omega), pow_zero, Nat.one_mul]
    exact hden.mulPow2 _
  · next hdown =>
    rw [bind_of_some (mulPow2?_eq _ _), bind_of_some (mulPow2?_eq _ _)]
    refine ⟨_, rfl, rfl, ?_, ?_⟩
    · rwa [Int.toNat_eq_zero.2 (show d.scale fmt.precision ≤ 0 by omega), pow_zero, Nat.one_mul]
    · rw [show (-d.scale fmt.precision).toNat = (d.scale fmt.precision).natAbs by omega]
      exact (hden.mulPow2 _).mulPow2 _

/-! ## The quotient -/

/-- All steps of the division of scaled digits, and what it finds in the end. -/
theorem Sized.run?_scaled (h : Sized fmt d) :
    ∃ (s : Scaled) (rest : Limbs), scaled? fmt.precision d d.exp.natAbs = some s ∧
      s.scale = d.scale fmt.precision ∧
      (∀ n ≤ fmt.precision + 6, ∃ t, Division.run? s.divisor n ⟨0, s.dividend⟩ = some t ∧
        t.rest.toNat < 2 * s.divisor.toNat) ∧
      Division.run? s.divisor (fmt.precision + 6) ⟨0, s.dividend⟩ =
        some ⟨d.dividend fmt.precision / d.divisor fmt.precision, rest⟩ ∧
      rest.isZero = (d.dividend fmt.precision % d.divisor fmt.precision == 0) := by
  have hfrac := fmt.fractionBits_le
  have hprecision : fmt.precision = fmt.fractionBits + 1 := rfl
  have hfits := Decimal.dividend_lt h.normal fmt.precision
  obtain ⟨s, hs, hscale, hw, hden⟩ := h.scaled?_represents
  obtain ⟨⟨q, rest⟩, hrun, rfl, hrest⟩ := Division.run?_shifted hden hw hfits (by omega)
  refine ⟨s, rest, hs, hscale, fun n hn => ?_, hrun, ?_⟩
  · obtain ⟨t, ht, hbalanced⟩ := Division.run?_balanced hden hw hfits (by omega : n ≤ 128)
    exact ⟨t, ht, hden.toNat_eq ▸ hbalanced.rest_lt⟩
  · rw [hrest.isZero, Bool.eq_iff_iff, decide_eq_true_iff, beq_iff_eq, Nat.mul_eq_zero,
      or_iff_right (Nat.two_pow_pos _).ne']

theorem Sized.quotient?_eq (h : Sized fmt d) (negative : Bool) :
    quotient? fmt.precision d d.exp.natAbs negative = some (d.quotient fmt.precision negative) := by
  have hbounds := h.scale_bounds
  obtain ⟨s, rest, hs, hscale, -, hrun, hzero⟩ := h.run?_scaled
  unfold quotient?
  rw [bind_of_some hs, bind_of_some hrun, hscale,
    bind_of_some (exponent?_of_bounds (by omega) (by omega)), hzero, Decimal.quotient_eq h.normal, bne]

/-- The significand is one of a few bits more than the precision, and the exponent makes up for the scale. -/
theorem Sized.quotient_within (h : Sized fmt d) (negative : Bool) :
    (d.quotient fmt.precision negative).1.Within 128 (2 ^ 30 + 2 ^ 20) := by
  have hbounds := h.scale_bounds
  have hfrac := fmt.fractionBits_le
  have hprecision : fmt.precision = fmt.fractionBits + 1 := rfl
  have hhigh := (Decimal.quotient_bounds h.normal fmt.precision).2
  rw [Decimal.quotient_eq h.normal]
  exact ⟨hhigh.trans_le (Nat.pow_le_pow_right (by decide) (by omega)), by dsimp only; omega,
    by dsimp only; omega⟩

theorem quotient_sig_ne_zero (h : d.Normal) (precision : ℕ) (negative : Bool) :
    (d.quotient precision negative).1.sig ≠ 0 := by
  rw [Decimal.quotient_eq h]
  exact ((Nat.two_pow_pos _).trans_le (Decimal.quotient_bounds h precision).1).ne'

/-- The quotient is rounded down. -/
theorem quotient_eq_floor (d : Decimal) (precision : ℕ) :
    d.dividend precision / d.divisor precision =
      ⌊(d.mantissa : ℚ) * 2 ^ d.scale precision / 10 ^ d.exp.natAbs⌋₊ := by
  rw [← Nat.floor_div_eq_div (K := ℚ), Decimal.dividend_div_divisor, div_mul_eq_mul_div]

/-- A remainder is left just where the quotient is not exact. -/
theorem remainder_eq_zero_iff (d : Decimal) (precision : ℕ) :
    d.dividend precision % d.divisor precision = 0 ↔
      ((d.dividend precision / d.divisor precision : ℕ) : ℚ) =
        d.mantissa * 2 ^ d.scale precision / 10 ^ d.exp.natAbs := by
  have hpos : (d.divisor precision : ℚ) ≠ 0 := by exact_mod_cast (d.divisor_pos precision).ne'
  rw [← div_mul_eq_mul_div, ← Decimal.dividend_div_divisor, eq_div_iff hpos,
    ← Nat.dvd_iff_mod_eq_zero]
  norm_cast
  exact ⟨Nat.div_mul_cancel, Dvd.intro_left _⟩

/-- The quotient has three or four bits more than the precision. -/
theorem size_quotient (h : d.Normal) (precision : ℕ) :
    Nat.size (d.dividend precision / d.divisor precision) = precision + 3 ∨
      Nat.size (d.dividend precision / d.divisor precision) = precision + 4 := by
  obtain ⟨hlow, hhigh⟩ := Decimal.quotient_bounds h precision
  have hmore := Nat.lt_size.2 hlow
  have hless := Nat.size_le.2 hhigh
  omega

/-! ## Decimals that are divided -/

/-- What leaves a decimal to the division: its power of ten is negative, and neither its size nor a single
operation decides its float. -/
structure Divided (fmt : FloatFormat) (negative : Bool) (d : Decimal) : Prop where
  normal : d.Normal
  length_le : d.digits.length ≤ 2 ^ 28
  exp_neg : d.exp < 0
  notLarge : d.places - 1 ≤ fmt.maxPlaces
  notSmall : fmt.minPlaces ≤ d.places
  notSingle : (BinaryFloat.ofDecimalSingle? negative d : Option (BinaryFloat fmt)) = none

theorem Divided.sized (h : Divided fmt negative d) : Sized fmt d :=
  ⟨h.normal, h.length_le, h.notLarge, h.notSmall⟩

/-- What the division finds is rounded to the float of the decimal. -/
theorem Divided.roundPack?_eq (h : Divided fmt negative d) :
    Checked.roundPack? .gradual (d.quotient fmt.precision negative).1
      (d.quotient fmt.precision negative).2 = some (.ofDecimal negative d : BinaryFloat fmt) := by
  have hread : (BinaryFloat.ofDecimal negative d : BinaryFloat fmt) = .roundPack .gradual
      (d.quotient fmt.precision negative).1 (d.quotient fmt.precision negative).2 := by
    unfold BinaryFloat.ofDecimal BinaryFloat.ofDecimalExact
    rw [if_neg (not_lt.2 h.notLarge), if_neg (not_lt.2 h.notSmall), h.notSingle, Option.getD_none,
      if_neg (not_le.2 h.exp_neg)]
  rw [hread]
  exact Checked.roundPack?_eq _ (h.sized.quotient_within negative)
    fun _ => quotient_sig_ne_zero h.normal _ _

/-- What is left stays below twice the divisor.  In the end the quotient is that of the digits by the power of
ten, scaled and rounded down, with three or four bits more than the precision, of which some are discarded;
nothing is left just where it is exact; and the number lies in the unit that begins with it. -/
theorem division_exact (h : Divided fmt negative d) :
    ∃ (s : Scaled) (q : ℕ) (rest : Limbs),
      d.exp.natAbs < 2 ^ 32 ∧
      scaled? fmt.precision d d.exp.natAbs = some s ∧
      (∀ n ≤ fmt.precision + 6, ∃ t, Division.run? s.divisor n ⟨0, s.dividend⟩ = some t ∧
        t.rest.toNat < 2 * s.divisor.toNat) ∧
      Division.run? s.divisor (fmt.precision + 6) ⟨0, s.dividend⟩ = some ⟨q, rest⟩ ∧
      q = ⌊(d.mantissa : ℚ) * 2 ^ s.scale / 10 ^ d.exp.natAbs⌋₊ ∧
      (Nat.size q = fmt.precision + 3 ∨ Nat.size q = fmt.precision + 4) ∧
      (rest.isZero = true ↔ (q : ℚ) = d.mantissa * 2 ^ s.scale / 10 ^ d.exp.natAbs) ∧
      q * 2 ^ (-s.scale) ≤ d.value ∧ d.value < (q + 1) * 2 ^ (-s.scale) ∧
      -s.scale < fmt.lastExp (Unpacked.leadExp ⟨negative, -s.scale, q⟩) ∧
      quotient? fmt.precision d d.exp.natAbs negative = some (⟨negative, -s.scale, q⟩, !rest.isZero) ∧
      Checked.roundPack? .gradual ⟨negative, -s.scale, q⟩ (!rest.isZero) =
        some (.ofDecimal negative d : BinaryFloat fmt) := by
  have hexp := h.sized.natAbs_exp_lt
  have hprecision : fmt.precision = fmt.fractionBits + 1 := rfl
  have hholds := Decimal.holds_quotient h.exp_neg fmt.precision negative
  have hfound := h.sized.quotient?_eq negative
  have hpacked := h.roundPack?_eq
  have hbits : 2 ^ (fmt.fractionBits + 1) ≤ d.dividend fmt.precision / d.divisor fmt.precision :=
    le_trans (Nat.pow_le_pow_right (by decide) (by omega))
      (Decimal.quotient_bounds h.normal fmt.precision).1
  obtain ⟨s, rest, hs, hscale, hsteps, hrun, hzero⟩ := h.sized.run?_scaled
  rw [Decimal.quotient_eq h.normal] at hfound hpacked
  refine ⟨s, _, rest, by omega, hs, hsteps, hrun, ?_⟩
  rw [hscale, hzero, beq_iff_eq]
  exact ⟨quotient_eq_floor d _, size_quotient h.normal _, remainder_eq_zero_iff d _, hholds.le,
    hholds.lt, Unpacked.exp_lt_lastExp hbits, hfound, hpacked⟩

/-- Seven places before the point are scaled down. -/
theorem division_exact_scaled_down : ∃ d : Decimal, d = ⟨[1, 2, 3, 4, 5, 6, 7, 9], -1⟩ ∧
    Divided .binary16 true d ∧ ∃ (s : Scaled) (rest : Limbs), s.scale = -6 ∧ rest.isZero = false ∧
      Division.run? s.divisor (FloatFormat.binary16.precision + 6) ⟨0, s.dividend⟩ =
        some ⟨19290, rest⟩ := by
  have h : Divided .binary16 true ⟨[1, 2, 3, 4, 5, 6, 7, 9], -1⟩ :=
    ⟨⟨by decide, 1, _, rfl, by decide⟩, by decide, by decide, by decide, by decide, by decide +kernel⟩
  obtain ⟨s, q, rest, -, -, -, hrun, -, -, -, -, -, -, hquotient, -⟩ := division_exact h
  have hvalue : quotient? FloatFormat.binary16.precision ⟨[1, 2, 3, 4, 5, 6, 7, 9], -1⟩ 1 true =
      some (⟨true, 6, 19290⟩, true) := by decide +kernel
  have heq := hquotient.symm.trans hvalue
  simp only [Option.some.injEq, Prod.mk.injEq, Unpacked.mk.injEq, true_and, Bool.not_eq_true'] at heq
  obtain ⟨⟨hscale, hq⟩, hrest⟩ := heq
  exact ⟨_, rfl, h, s, rest, by omega, hrest, hq ▸ hrun⟩

end MachineNumbers.CheckedDecimal
