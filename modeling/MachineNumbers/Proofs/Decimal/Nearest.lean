import Mathlib
import MachineNumbers.Decimal.Nearest
import MachineNumbers.Proofs.Arithmetic
import MachineNumbers.Proofs.Limbs
import MachineNumbers.Proofs.Positional

/-!
# Decimals are read to the nearest float

Each way from a decimal to a float rounds its value: the cut-offs by size (`roundsTo_of_large`,
`roundsTo_of_small`), the single operation (`ofDecimalSingle?_roundsTo`), and on limbs the product
(`product_roundsTo`) and the long division (`quotient_roundsTo`).  So `ofDecimal` does
(`ofDecimal_roundsTo`), and a single operation gives the same bits as the limbs
(`singleOperation_eq_exact`).
-/

namespace MachineNumbers

namespace Decimal

def value (d : Decimal) : ℚ := d.mantissa * 10 ^ d.exp

theorem value_eq_mul {d : Decimal} (hexp : 0 ≤ d.exp) :
    d.value = d.mantissa * 10 ^ d.exp.natAbs := by
  unfold value
  conv_lhs => rw [show d.exp = (d.exp.natAbs : ℤ) by omega, zpow_natCast]

theorem value_eq_div {d : Decimal} (hexp : d.exp < 0) :
    d.value = d.mantissa / 10 ^ d.exp.natAbs := by
  unfold value
  conv_lhs => rw [show d.exp = -(d.exp.natAbs : ℤ) by omega, zpow_neg, zpow_natCast]
  exact (div_eq_mul_inv _ _).symm

/-- Digits below ten of which the first is not zero. -/
structure Normal (d : Decimal) : Prop where
  digits_lt : ∀ x ∈ d.digits, x < 10
  head : ∃ x xs, d.digits = x :: xs ∧ x ≠ 0

/-! ## Size -/

theorem Normal.mantissa_lt {d : Decimal} (h : d.Normal) : d.mantissa < 10 ^ d.digits.length :=
  Positional.ofDigits_lt h.digits_lt

theorem Normal.le_mantissa {d : Decimal} (h : d.Normal) :
    10 ^ (d.digits.length - 1) ≤ d.mantissa := by
  obtain ⟨x, xs, hds, hx⟩ := h.head
  unfold mantissa
  rw [hds, List.length_cons, Nat.add_sub_cancel]
  exact Positional.pow_le_ofDigits hx xs

theorem Normal.mantissa_ne_zero {d : Decimal} (h : d.Normal) : d.mantissa ≠ 0 := by
  have := h.le_mantissa
  have : 0 < 10 ^ (d.digits.length - 1) := by positivity
  omega

theorem Normal.length_pos {d : Decimal} (h : d.Normal) : 0 < d.digits.length := by
  obtain ⟨x, xs, hds, -⟩ := h.head
  simp [hds]

theorem Normal.value_lt {d : Decimal} (h : d.Normal) :
    d.value < 10 ^ (d.digits.length + d.exp) := by
  have hlt : (d.mantissa : ℚ) < 10 ^ d.digits.length := by exact_mod_cast h.mantissa_lt
  unfold value
  rw [zpow_add₀ (by norm_num), zpow_natCast]
  exact mul_lt_mul_of_pos_right hlt (by positivity)

theorem Normal.le_value {d : Decimal} (h : d.Normal) :
    10 ^ (d.digits.length + d.exp - 1) ≤ d.value := by
  have hle : (10 : ℚ) ^ (d.digits.length - 1) ≤ d.mantissa := by exact_mod_cast h.le_mantissa
  have := h.length_pos
  rw [value, show (d.digits.length : ℤ) + d.exp - 1
    = ((d.digits.length - 1 : ℕ) : ℤ) + d.exp by omega, zpow_add₀ (by norm_num), zpow_natCast]
  exact mul_le_mul_of_nonneg_right hle (by positivity)

/-! ## Cut-offs -/

theorem saturated_eq (n : ℤ) : saturated n = max (-2 ^ 63) (min n (2 ^ 63 - 1)) := by
  rfl

/-- `28 / 93` is a little over the decimal logarithm of two. -/
theorem two_pow_le_ten_pow {m n : Nat} (h : 28 * m ≤ 93 * n) : 2 ^ m ≤ 10 ^ n := by
  rw [← Nat.pow_le_pow_iff_left (n := 93) (by decide)]
  calc (2 ^ m) ^ 93 = (2 ^ 93) ^ m := by rw [← pow_mul, ← pow_mul, Nat.mul_comm]
    _ ≤ (10 ^ 28) ^ m := Nat.pow_le_pow_left (by norm_num) m
    _ = 10 ^ (28 * m) := by rw [← pow_mul]
    _ ≤ 10 ^ (93 * n) := Nat.pow_le_pow_right (by decide) h
    _ = (10 ^ n) ^ 93 := by rw [← pow_mul, Nat.mul_comm]

variable {fmt : FloatFormat} {d : Decimal}

/-- Past the cut-offs, the power of ten makes up for the digits. -/
theorem exp_bounds_of_places (hlarge : d.places - 1 ≤ fmt.maxPlaces) (hsmall : fmt.minPlaces ≤ d.places) :
    -2 ^ 13 < d.digits.length + d.exp ∧ d.digits.length + d.exp < 2 ^ 13 := by
  have hbias := fmt.bias_lt
  have hfrac := fmt.fractionBits_le
  have hmin := fmt.minExp_eq
  unfold FloatFormat.maxPlaces FloatFormat.maxLead Decimal.places at hlarge
  unfold FloatFormat.minPlaces Decimal.places at hsmall
  rw [saturated_eq] at hlarge hsmall
  omega

theorem roundsTo_of_large (h : d.Normal) (hlarge : fmt.maxPlaces < d.places - 1) :
    fmt.RoundsTo d.value fmt.infinityWord := by
  have hbias := fmt.bias_lt
  unfold FloatFormat.maxPlaces FloatFormat.maxLead Decimal.places at hlarge
  rw [saturated_eq] at hlarge
  obtain ⟨n, hn⟩ := Int.eq_ofNat_of_zero_le (a := d.digits.length + d.exp - 1) (by omega)
  have hpow : (2 : ℚ) ^ (fmt.bias + 1) ≤ 10 ^ n := by
    exact_mod_cast two_pow_le_ten_pow (m := fmt.bias + 1) (n := n) (by omega)
  refine .of_infinite (le_trans ?_ h.le_value)
  rw [fmt.magnitude_infinityWord, hn, zpow_natCast, FloatFormat.maxLead]
  exact_mod_cast hpow

theorem midpoint_zero (fmt : FloatFormat) : fmt.midpoint 0 = 2 ^ (fmt.minExp - 1) := by
  unfold FloatFormat.midpoint
  rw [fmt.magnitude_zero, fmt.magnitude_one, zero_add, zpow_sub₀ (by norm_num), zpow_one]

theorem roundsTo_of_small (h : d.Normal) (hsmall : d.places < fmt.minPlaces) :
    fmt.RoundsTo d.value 0 := by
  have hbias := fmt.bias_lt
  have hfrac := fmt.fractionBits_le
  have hmin := fmt.minExp_eq
  have hmin0 := fmt.minExp_nonpos
  unfold FloatFormat.minPlaces Decimal.places at hsmall
  rw [saturated_eq] at hsmall
  obtain ⟨n, hn⟩ := Int.eq_ofNat_of_zero_le (a := -(d.digits.length + d.exp)) (by omega)
  obtain ⟨m, hm⟩ := Int.eq_ofNat_of_zero_le (a := 1 - fmt.minExp) (by omega)
  have hpow : (2 : ℚ) ^ m ≤ 10 ^ n := by
    exact_mod_cast two_pow_le_ten_pow (m := m) (n := n) (by omega)
  refine .of_tiny (h.value_lt.trans_le ?_)
  rw [midpoint_zero, show (d.digits.length : ℤ) + d.exp = -(n : ℤ) by omega,
    show fmt.minExp - 1 = -(m : ℤ) by omega, zpow_neg, zpow_neg, zpow_natCast, zpow_natCast]
  exact inv_anti₀ (by positivity) hpow

/-! ## Limbs of the digits -/

theorem limbs_represents (h : ∀ x ∈ d.digits, x < 10) : d.limbs.Represents d.mantissa := by
  have step : ∀ (ds : List Nat) (x : Limbs) (n : Nat), (∀ y ∈ ds, y < 10) → x.Represents n →
      (ds.foldl (fun x digit => x.mulAddSmall 10 (UInt32.ofNat digit)) x).Represents
        (ds.foldl (fun n d => n * 10 + d) n) := by
    intro ds
    induction ds with
    | nil => exact fun x n _ hx => hx
    | cons y ys ih =>
      intro x n hds hx
      have hy : y < 10 := hds y (by simp)
      apply ih _ _ (fun z hz => hds z (by simp [hz]))
      have := hx.mulAddSmall 10 (UInt32.ofNat y)
      rwa [Limbs.toNat_ofNat, Nat.mod_eq_of_lt (hy.trans (by decide))] at this
  exact step d.digits ⟨[]⟩ 0 h Limbs.represents_nil

/-! ## Products -/

theorem product_eq (h : ∀ x ∈ d.digits, x < 10) (negative : Bool) :
    ∃ shift N : Nat, N = d.mantissa * 10 ^ d.exp.toNat ∧ shift = Nat.size N - 126 ∧
      d.product negative = (⟨negative, shift, N / 2 ^ shift⟩, N % 2 ^ shift != 0) := by
  have hw := (limbs_represents h).mulPow10 d.exp.toNat
  refine ⟨_, _, rfl, rfl, ?_⟩
  unfold product
  simp only [hw.bitLength, Limbs.splitAtBit_eq hw.toNat_eq, Nat.mul_comm (10 ^ _)]

theorem product_roundsTo (h : d.Normal) (hexp : 0 ≤ d.exp) (negative : Bool) :
    fmt.RoundsTo d.value (BinaryFloat.roundPack .gradual (d.product negative).1
      (d.product negative).2 : BinaryFloat fmt).word := by
  obtain ⟨shift, N, hN, hshift, heq⟩ := product_eq h.digits_lt negative
  rw [heq]
  have hN0 : N ≠ 0 := by
    rw [hN]
    exact Nat.mul_ne_zero h.mantissa_ne_zero (by positivity)
  have hpow := Nat.two_pow_pos shift
  have hlt : N / 2 ^ shift < 2 ^ 128 := by
    rw [Nat.div_lt_iff_lt_mul hpow, ← pow_add]
    exact (Nat.lt_size_self N).trans_le (Nat.pow_le_pow_right (by decide) (by omega))
  have hvalue : d.value = (N : ℚ) / (2 ^ shift : ℕ) * 2 ^ (shift : ℤ) := by
    rw [value_eq_mul hexp, show d.exp.natAbs = d.exp.toNat by omega, zpow_natCast, Nat.cast_pow,
      Nat.cast_ofNat, div_mul_cancel₀ _ (by positivity), hN]
    push_cast
    rfl
  rw [hvalue]
  rcases Nat.eq_zero_or_pos shift with h0 | h0
  · have hsticky : (N % 2 ^ shift != 0) = false := by rw [h0, pow_zero, Nat.mod_one]; rfl
    refine BinaryFloat.roundPack_roundsTo ?_ hlt (Unpacked.holds_div _ _ _ hpow) ?_
    · simpa [h0] using hN0
    · simp [hsticky]
  · -- 126 bits are kept
    have hbits : 2 ^ 125 ≤ N / 2 ^ shift := by
      rw [Nat.le_div_iff_mul_le hpow, ← pow_add]
      exact Nat.lt_size.1 (by omega)
    have hfrac := fmt.fractionBits_le
    exact BinaryFloat.roundPack_roundsTo_of_bits
      (le_trans (Nat.pow_le_pow_right (by decide) (by omega)) hbits) hlt
      (Unpacked.holds_div _ _ _ hpow)

/-! ## Long division -/

/-- Each step of the division doubles the dividend; its quotient and remainder are by `2 × D`. -/
theorem longDivision_spec {den : Limbs} {D : Nat} (hden : den.Represents D) (hD : 0 < D)
    (steps : Nat) {w : Limbs} {W : Nat} (hw : w.Represents W) (hW : W < 2 * D) (q : Nat) :
    (longDivision den steps w q).1 = 2 ^ steps * q + 2 ^ steps * W / (2 * D) ∧
      (longDivision den steps w q).2.Represents (2 ^ steps * W % (2 * D)) := by
  induction steps generalizing w W q with
  | zero =>
    rw [longDivision, pow_zero, Nat.one_mul, Nat.one_mul, Nat.div_eq_of_lt hW, Nat.mod_eq_of_lt hW]
    exact ⟨rfl, hw⟩
  | succ steps ih =>
    rw [longDivision, hden.le hw]
    by_cases hle : D ≤ W
    · obtain ⟨h1, h2⟩ := ih ((hw.sub hden hle).mulPow2 1) (by omega) (2 * q + 1)
      have hsplit : 2 ^ (steps + 1) * W = 2 ^ steps * (2 ^ 1 * (W - D)) + 2 * D * 2 ^ steps := by
        conv_lhs => rw [← Nat.sub_add_cancel hle]
        ring
      simp only [hle, decide_true, if_true]
      rw [hsplit, Nat.add_mul_div_left _ _ (by omega), Nat.add_mul_mod_self_left, h1]
      exact ⟨by ring, h2⟩
    · obtain ⟨h1, h2⟩ := ih (hw.mulPow2 1) (by omega) (2 * q)
      have hsplit : 2 ^ (steps + 1) * W = 2 ^ steps * (2 ^ 1 * W) := by ring
      simp only [hle, decide_false, Bool.false_eq_true, if_false]
      rw [hsplit, h1]
      exact ⟨by ring, h2⟩

/-- With the divisor shifted up by as many places as there are steps but one, the division is exact. -/
theorem longDivision_eq {den : Limbs} {D : Nat} (hden : den.Represents D) (hD : 0 < D) (top : Nat)
    {w : Limbs} {W : Nat} (hw : w.Represents W) (hW : W < 2 * (2 ^ top * D)) :
    (longDivision (den.mulPow2 top) (top + 1) w 0).1 = W / D ∧
      (longDivision (den.mulPow2 top) (top + 1) w 0).2.isZero = decide (W % D = 0) := by
  have hdouble : 2 * (2 ^ top * D) = 2 ^ (top + 1) * D := by ring
  obtain ⟨hq, hr⟩ := longDivision_spec (hden.mulPow2 top) (Nat.mul_pos (Nat.two_pow_pos top) hD)
    (top + 1) hw hW 0
  rw [hdouble, Nat.mul_mod_mul_left] at hr
  rw [hdouble, Nat.mul_div_mul_left _ _ (Nat.two_pow_pos _), Nat.mul_zero, Nat.zero_add] at hq
  refine ⟨hq, ?_⟩
  rw [hr.isZero]
  congr 1
  simp

/-- Numbers shifted so that their lengths differ by `n + 1` have a quotient of `n` bits and one or two
more. -/
theorem shifted_quotient_bounds {M T : Nat} (hM : 0 < M) (hT : 0 < T) {a b n : Nat}
    (h : Nat.size M + a = Nat.size T + b + n + 1) :
    2 ^ n * (2 ^ b * T) ≤ 2 ^ a * M ∧ 2 ^ a * M < 2 ^ b * T * 2 ^ (n + 2) := by
  have hMpos := Nat.size_pos.2 hM
  have hTpos := Nat.size_pos.2 hT
  have hMlow : 2 ^ (Nat.size M - 1) ≤ M := Nat.lt_size.1 (by omega)
  have hTlow : 2 ^ (Nat.size T - 1) ≤ T := Nat.lt_size.1 (by omega)
  constructor
  · calc 2 ^ n * (2 ^ b * T) ≤ 2 ^ n * (2 ^ b * 2 ^ Nat.size T) :=
          Nat.mul_le_mul_left _ (Nat.mul_le_mul_left _ (Nat.lt_size_self T).le)
      _ = 2 ^ a * 2 ^ (Nat.size M - 1) := by
          rw [← pow_add, ← pow_add, ← pow_add]
          congr 1
          omega
      _ ≤ 2 ^ a * M := Nat.mul_le_mul_left _ hMlow
  · calc 2 ^ a * M < 2 ^ a * 2 ^ Nat.size M :=
          Nat.mul_lt_mul_of_pos_left (Nat.lt_size_self M) (Nat.two_pow_pos _)
      _ = 2 ^ b * 2 ^ (Nat.size T - 1) * 2 ^ (n + 2) := by
          rw [← pow_add, ← pow_add, ← pow_add]
          congr 1
          omega
      _ ≤ 2 ^ b * T * 2 ^ (n + 2) := Nat.mul_le_mul_right _ (Nat.mul_le_mul_left _ hTlow)

/-- The exponent of the power of two that scales digits over a power of ten: their quotient has three or
four bits more than `precision`. -/
def scale (d : Decimal) (precision : Nat) : ℤ :=
  (Nat.size (10 ^ d.exp.natAbs) : ℤ) - Nat.size d.mantissa + precision + 3

/-- The digits, scaled up. -/
def dividend (d : Decimal) (precision : Nat) : Nat := 2 ^ (d.scale precision).toNat * d.mantissa

/-- The power of ten, scaled up where the digits would have to be scaled down. -/
def divisor (d : Decimal) (precision : Nat) : Nat := 2 ^ (-d.scale precision).toNat * 10 ^ d.exp.natAbs

theorem divisor_pos (d : Decimal) (precision : Nat) : 0 < d.divisor precision := by
  unfold divisor
  positivity

theorem dividend_div_divisor (d : Decimal) (precision : Nat) :
    (d.dividend precision : ℚ) / d.divisor precision =
      d.mantissa / 10 ^ d.exp.natAbs * 2 ^ d.scale precision := by
  unfold dividend divisor
  push_cast
  rw [Positional.pow_toNat (by norm_num) (d.scale precision)]
  field_simp

theorem dividend_bounds (h : d.Normal) (precision : Nat) :
    2 ^ (precision + 2) * d.divisor precision ≤ d.dividend precision ∧
      d.dividend precision < d.divisor precision * 2 ^ (precision + 4) := by
  have hscale : d.scale precision =
      (Nat.size (10 ^ d.exp.natAbs) : ℤ) - Nat.size d.mantissa + precision + 3 := rfl
  exact shifted_quotient_bounds (Nat.pos_of_ne_zero h.mantissa_ne_zero) (by positivity)
    (n := precision + 2) (by omega)

/-- Shifted up for the division, the divisor is more than half of the dividend. -/
theorem dividend_lt (h : d.Normal) (precision : Nat) :
    d.dividend precision < 2 * (2 ^ (precision + 5) * d.divisor precision) := by
  refine (dividend_bounds h precision).2.trans_le ?_
  rw [← Nat.mul_assoc, ← pow_succ', Nat.mul_comm]
  exact Nat.mul_le_mul_right _ (Nat.pow_le_pow_right (by decide) (by omega))

/-- The quotient has three or four bits more than `precision`. -/
theorem quotient_bounds (h : d.Normal) (precision : Nat) :
    2 ^ (precision + 2) ≤ d.dividend precision / d.divisor precision ∧
      d.dividend precision / d.divisor precision < 2 ^ (precision + 4) := by
  obtain ⟨hlow, hhigh⟩ := dividend_bounds h precision
  have hpos := d.divisor_pos precision
  exact ⟨(Nat.le_div_iff_mul_le hpos).2 hlow,
    (Nat.div_lt_iff_lt_mul hpos).2 (by rwa [Nat.mul_comm (2 ^ (precision + 4))])⟩

/-- What the division finds. -/
theorem quotient_eq (h : d.Normal) (precision : Nat) (negative : Bool) :
    d.quotient precision negative =
      (⟨negative, -d.scale precision, d.dividend precision / d.divisor precision⟩,
        d.dividend precision % d.divisor precision != 0) := by
  have hw := limbs_represents h.digits_lt
  have hden := (Limbs.ofNat64_represents (n := 1) (by decide)).mulPow10 d.exp.natAbs
  rw [Nat.mul_one] at hden
  have hscale : (Nat.size (10 ^ d.exp.natAbs) : ℤ) - Nat.size d.mantissa + precision + 3 =
      d.scale precision := rfl
  obtain ⟨hq, hr⟩ := longDivision_eq (hden.mulPow2 (-d.scale precision).toNat) (d.divisor_pos precision)
    (precision + 5) (hw.mulPow2 (d.scale precision).toNat) (dividend_lt h precision)
  rw [quotient]
  simp only [hw.bitLength, hden.bitLength, hscale, hq, hr]
  rfl

theorem value_eq_dividend_div (hexp : d.exp < 0) (precision : Nat) :
    d.value = (d.dividend precision : ℚ) / d.divisor precision * 2 ^ (-d.scale precision) := by
  rw [dividend_div_divisor, value_eq_div hexp, mul_assoc, ← zpow_add₀ (by norm_num), add_neg_cancel,
    zpow_zero, mul_one]

/-- The quotient holds the number, with a remainder as sticky. -/
theorem holds_quotient (hexp : d.exp < 0) (precision : Nat) (negative : Bool) :
    (⟨negative, -d.scale precision, d.dividend precision / d.divisor precision⟩ : Unpacked).Holds
      (d.dividend precision % d.divisor precision != 0) d.value := by
  rw [value_eq_dividend_div hexp precision]
  exact Unpacked.holds_div _ _ _ (d.divisor_pos precision)

theorem quotient_roundsTo (h : d.Normal) (hexp : d.exp < 0) (negative : Bool) :
    fmt.RoundsTo d.value (BinaryFloat.roundPack .gradual (d.quotient fmt.precision negative).1
      (d.quotient fmt.precision negative).2 : BinaryFloat fmt).word := by
  obtain ⟨hlow, hhigh⟩ := quotient_bounds h fmt.precision
  have hprec : fmt.precision = fmt.fractionBits + 1 := rfl
  have hfrac := fmt.fractionBits_le
  rw [quotient_eq h]
  exact BinaryFloat.roundPack_roundsTo_of_bits
    (le_trans (Nat.pow_le_pow_right (by decide) (by omega)) hlow)
    (hhigh.trans_le (Nat.pow_le_pow_right (by decide) (by omega)))
    (holds_quotient hexp fmt.precision negative)

end Decimal

namespace BinaryFloat

variable {fmt : FloatFormat} {d : Decimal}

/-! ## The single operation -/

/-- A small whole number or power of ten, if finite, is a number of the format. -/
theorem magnitude_roundPack_of_exact {sign : Bool} {n k sig : Nat} (hn : n ≠ 0)
    (hlt : n < 2 * fmt.hiddenBit) (hsig : sig = n * 2 ^ k) (hsiglt : sig < 2 ^ 128)
    (hfin : (roundPack .gradual ⟨sign, 0, sig⟩ false : BinaryFloat fmt).isFinite = true) :
    fmt.magnitude (roundPack .gradual ⟨sign, 0, sig⟩ false : BinaryFloat fmt).word = sig := by
  have hmin := fmt.minExp_nonpos
  obtain ⟨w, hw⟩ := exists_magnitude_eq fmt hn hlt (k := k) (by omega)
  have hw' : fmt.magnitude w = sig * 2 ^ (0 : ℤ) := by
    rw [hw, hsig, zpow_zero, mul_one, zpow_natCast]
    push_cast
    rfl
  have hsig0 : sig ≠ 0 := by
    rw [hsig]
    exact Nat.mul_ne_zero hn (by positivity)
  have hword := @roundPack_exact fmt ⟨sign, 0, sig⟩ _ hsig0 hsiglt hw'
  rw [isFinite_iff, hword] at hfin
  rw [hword, Nat.min_eq_left (by omega), hw', zpow_zero, mul_one]

def digitsFloat (negative : Bool) (d : Decimal) : BinaryFloat fmt :=
  roundPack .gradual ⟨negative, 0, d.mantissa⟩ false

def scaleFloat (d : Decimal) : BinaryFloat fmt := roundPack .gradual ⟨false, 0, 10 ^ d.exp.natAbs⟩ false

/-- The product or quotient of digits and power of ten. -/
def singleOperation (negative : Bool) (d : Decimal) : BinaryFloat fmt :=
  if 0 ≤ d.exp then mul .gradual (digitsFloat negative d) (scaleFloat d)
  else div .gradual (digitsFloat negative d) (scaleFloat d)

/-- What is asked of a decimal before a single operation is trusted with it. -/
structure TakesSingle (fmt : FloatFormat) (negative : Bool) (d : Decimal) : Prop where
  length_le : d.digits.length ≤ 19
  mantissa_lt : d.mantissa < 2 ^ fmt.precision
  power_le : d.exp.natAbs ≤ 27
  five_pow_lt : 5 ^ d.exp.natAbs < 2 ^ fmt.precision
  digits_finite : (digitsFloat negative d : BinaryFloat fmt).isFinite = true
  scale_finite : (scaleFloat d : BinaryFloat fmt).isFinite = true

theorem ofDecimalSingle?_eq_some_iff {negative : Bool} {x : BinaryFloat fmt} :
    ofDecimalSingle? negative d = some x ↔ TakesSingle fmt negative d ∧ singleOperation negative d = x := by
  unfold ofDecimalSingle?
  dsimp only
  constructor
  · intro h
    split at h
    · next hsmall =>
      obtain ⟨hlength, hmantissa, hpower, hfive⟩ := hsmall
      split at h
      · next hfinite =>
        rw [Bool.and_eq_true] at hfinite
        exact ⟨⟨hlength, hmantissa, hpower, hfive, hfinite.1, hfinite.2⟩, Option.some_inj.1 h⟩
      · cases h
    · cases h
  · rintro ⟨h, rfl⟩
    have hfinite := Bool.and_eq_true_iff.2 ⟨h.digits_finite, h.scale_finite⟩
    rw [if_pos ⟨h.length_le, h.mantissa_lt, h.power_le, h.five_pow_lt⟩]
    exact if_pos hfinite

namespace TakesSingle

variable {negative : Bool}

/-- Digits below `2^precision` are a number of the format. -/
theorem magnitude_digits (h : TakesSingle fmt negative d) (hd : d.Normal) :
    fmt.magnitude (digitsFloat negative d : BinaryFloat fmt).word = d.mantissa := by
  have hlt := h.mantissa_lt
  have hbit := hiddenBit_le fmt
  rw [fmt.two_pow_precision] at hlt
  exact magnitude_roundPack_of_exact (k := 0) hd.mantissa_ne_zero hlt (by rw [pow_zero, mul_one])
    (by omega) h.digits_finite

/-- A power of ten is one if its power of five lies below `2^precision`, unless it is infinite. -/
theorem magnitude_scale (h : TakesSingle fmt negative d) :
    fmt.magnitude (scaleFloat d : BinaryFloat fmt).word = 10 ^ d.exp.natAbs := by
  have hfive := h.five_pow_lt
  have hten : 10 ^ d.exp.natAbs = 5 ^ d.exp.natAbs * 2 ^ d.exp.natAbs := by rw [← Nat.mul_pow]
  have htenlt : 10 ^ d.exp.natAbs < 2 ^ 128 :=
    (Nat.pow_le_pow_right (by decide) h.power_le).trans_lt (by norm_num)
  rw [fmt.two_pow_precision] at hfive
  have hmagnitude : fmt.magnitude (scaleFloat d : BinaryFloat fmt).word = (10 ^ d.exp.natAbs : ℕ) :=
    magnitude_roundPack_of_exact (by positivity) hfive hten htenlt h.scale_finite
  exact_mod_cast hmagnitude

theorem scale_word_ne_zero (h : TakesSingle fmt negative d) :
    (scaleFloat d : BinaryFloat fmt).word ≠ 0 := by
  intro h0
  have hscale := h.magnitude_scale
  rw [h0, fmt.magnitude_zero] at hscale
  exact (show (10 : ℚ) ^ d.exp.natAbs ≠ 0 by positivity) hscale.symm

/-- Both operands are exact, so their product or quotient is rounded once only. -/
theorem roundsTo (h : TakesSingle fmt negative d) (hd : d.Normal) :
    fmt.RoundsTo d.value (singleOperation negative d : BinaryFloat fmt).word ∧
      (singleOperation negative d : BinaryFloat fmt).sign = negative := by
  have hsign : ((digitsFloat negative d : BinaryFloat fmt).sign !=
      (scaleFloat d : BinaryFloat fmt).sign) = negative := by
    rw [digitsFloat, scaleFloat, roundPack_sign, roundPack_sign, Bool.bne_false]
  unfold singleOperation
  split
  · next hexp =>
    have hround := mul_roundsTo h.digits_finite h.scale_finite
    rw [h.magnitude_digits hd, h.magnitude_scale, ← Decimal.value_eq_mul hexp] at hround
    exact ⟨hround, (mul_sign h.digits_finite h.scale_finite).trans hsign⟩
  · next hexp =>
    have hround := div_roundsTo h.digits_finite h.scale_finite h.scale_word_ne_zero
    rw [h.magnitude_digits hd, h.magnitude_scale, ← Decimal.value_eq_div (not_le.1 hexp)] at hround
    exact ⟨hround, (div_sign h.digits_finite h.scale_finite h.scale_word_ne_zero).trans hsign⟩

end TakesSingle

theorem ofDecimalSingle?_roundsTo (h : d.Normal) {negative : Bool} {x : BinaryFloat fmt}
    (hx : ofDecimalSingle? negative d = some x) :
    fmt.RoundsTo d.value x.word ∧ x.sign = negative := by
  obtain ⟨htakes, rfl⟩ := ofDecimalSingle?_eq_some_iff.1 hx
  exact htakes.roundsTo h

/-! ## All ways together -/

theorem ofDecimalExact_roundsTo (h : d.Normal) (negative : Bool) :
    fmt.RoundsTo d.value (ofDecimalExact negative d : BinaryFloat fmt).word ∧
      (ofDecimalExact negative d : BinaryFloat fmt).sign = negative := by
  unfold ofDecimalExact
  split
  · next x sticky heq =>
    split at heq
    · next hexp =>
      obtain ⟨shift, N, -, -, hprod⟩ := Decimal.product_eq h.digits_lt negative
      have : fmt.RoundsTo d.value _ := Decimal.product_roundsTo h hexp negative
      rw [heq] at this hprod
      refine ⟨this, ?_⟩
      rw [roundPack_sign, (Prod.mk.inj hprod).1]
    · next hexp =>
      have hquot := Decimal.quotient_eq h fmt.precision negative
      have : fmt.RoundsTo d.value _ := Decimal.quotient_roundsTo h (by omega) negative
      rw [heq] at this hquot
      refine ⟨this, ?_⟩
      rw [roundPack_sign, (Prod.mk.inj hquot).1]

/-- Reading a decimal rounds its value, whichever way it is read. -/
theorem ofDecimal_roundsTo (h : d.Normal) (negative : Bool) :
    fmt.RoundsTo d.value (ofDecimal negative d : BinaryFloat fmt).word ∧
      (ofDecimal negative d : BinaryFloat fmt).sign = negative := by
  unfold ofDecimal
  split
  · next hlarge =>
    refine ⟨?_, rfl⟩
    unfold infinity
    rw [word_ofWord le_rfl]
    exact Decimal.roundsTo_of_large h hlarge
  · split
    · next hsmall => exact ⟨Decimal.roundsTo_of_small h hsmall, rfl⟩
    · cases hsingle : (ofDecimalSingle? negative d : Option (BinaryFloat fmt)) with
      | none => exact ofDecimalExact_roundsTo h negative
      | some x => exact ofDecimalSingle?_roundsTo h hsingle

/-- A single operation that is trusted gives what the computation on limbs does, bit for bit; and it is
what it stands for, since digits and power of ten are both numbers of the format. -/
theorem singleOperation_eq_exact {negative : Bool} (hd : d.Normal) (h : TakesSingle fmt negative d) :
    fmt.magnitude (digitsFloat negative d : BinaryFloat fmt).word = d.mantissa ∧
    fmt.magnitude (scaleFloat d : BinaryFloat fmt).word = 10 ^ d.exp.natAbs ∧
    (0 ≤ d.exp → (mul .gradual (digitsFloat negative d) (scaleFloat d) : BinaryFloat fmt) =
      ofDecimalExact negative d) ∧
    (d.exp < 0 → (div .gradual (digitsFloat negative d) (scaleFloat d) : BinaryFloat fmt) =
      ofDecimalExact negative d) ∧
    ofDecimalSingle? negative d = some (ofDecimalExact negative d : BinaryFloat fmt) := by
  obtain ⟨hround, hsign⟩ := h.roundsTo hd
  obtain ⟨hround', hsign'⟩ := @ofDecimalExact_roundsTo fmt d hd negative
  have heq : (singleOperation negative d : BinaryFloat fmt) = ofDecimalExact negative d :=
    ext_word (hsign.trans hsign'.symm) (hround.unique hround')
  refine ⟨h.magnitude_digits hd, h.magnitude_scale, fun hexp => ?_, fun hexp => ?_,
    ofDecimalSingle?_eq_some_iff.2 ⟨h, heq⟩⟩
  · rwa [singleOperation, if_pos hexp] at heq
  · rwa [singleOperation, if_neg (not_le.2 hexp)] at heq

/-- The largest digits that half precision holds, over the largest power of ten. -/
theorem singleOperation_eq_exact_largest : ∃ d : Decimal, d = ⟨[2, 0, 4, 7], -4⟩ ∧ d.Normal ∧
    TakesSingle .binary16 true d ∧
    (div .gradual (digitsFloat true d) (scaleFloat d) : BinaryFloat .binary16) = ofBits 0xb28d ∧
    (ofDecimalExact true d : BinaryFloat .binary16) = ofBits 0xb28d := by
  have hd : Decimal.Normal ⟨[2, 0, 4, 7], -4⟩ := ⟨by decide, 2, [0, 4, 7], rfl, by decide⟩
  have h : TakesSingle .binary16 true ⟨[2, 0, 4, 7], -4⟩ :=
    ⟨by decide, by decide, by decide, by decide, by decide +kernel, by decide +kernel⟩
  obtain ⟨-, -, -, hquotient, -⟩ := singleOperation_eq_exact hd h
  have hexact := hquotient (by decide)
  have hbits : (div .gradual (digitsFloat true ⟨[2, 0, 4, 7], -4⟩) (scaleFloat ⟨[2, 0, 4, 7], -4⟩) :
      BinaryFloat .binary16) = ofBits 0xb28d := by decide +kernel
  exact ⟨_, rfl, hd, h, hbits, hexact.symm.trans hbits⟩

end BinaryFloat

end MachineNumbers
