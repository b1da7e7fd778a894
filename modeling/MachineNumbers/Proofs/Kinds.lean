import Mathlib
import MachineNumbers.Proofs.Arithmetic.Sum

/-!
# Kinds of floats and what is read of them

The kind of a float lies in its word: zeros, subnormal and normal numbers, infinities and NaNs follow one
another.  What `unpack` reads is the number itself (`standsFor_unpack`), in every mode unless that flushes
a subnormal one (`unpack_of_plain`, `readsAsZero_of_plain`).
-/

namespace MachineNumbers

namespace BinaryFloat

variable {fmt : FloatFormat} {x : BinaryFloat fmt} {mode : SubnormalMode}

/-! ## Kinds -/

/-- A subnormal number is nonzero and has an empty exponent field. -/
theorem isSubnormal_iff (x : BinaryFloat fmt) :
    x.isSubnormal = true ↔ x.word ≠ 0 ∧ x.word < fmt.hiddenBit := by
  have hfield : x.exponentField = 0 ↔ x.word < fmt.hiddenBit :=
    Nat.div_eq_zero_iff_lt fmt.hiddenBit_pos
  unfold isSubnormal
  rw [Bool.and_eq_true, beq_iff_eq, bne_iff_ne, hfield, and_comm]
  refine and_congr_left fun hlt => ?_
  have : x.fractionField = x.word := Nat.mod_eq_of_lt hlt
  rw [this]

theorem isSubnormal_eq_false_iff (x : BinaryFloat fmt) :
    x.isSubnormal = false ↔ x.word = 0 ∨ fmt.hiddenBit ≤ x.word := by
  rw [← Bool.not_eq_true, isSubnormal_iff]
  omega

theorem hiddenBit_le_infinityWord (fmt : FloatFormat) : fmt.hiddenBit ≤ fmt.infinityWord := by
  rw [fmt.infinityWord_eq]
  exact Nat.le_mul_of_pos_left _ (by omega)

theorem isSubnormal_neg (x : BinaryFloat fmt) : (-x).isSubnormal = x.isSubnormal := rfl

/-- No NaN comes out of a list exactly when none is in it. -/
theorem propagatedNaN?_eq_none_iff {xs : List (BinaryFloat fmt)} :
    propagatedNaN? xs = none ↔ ∀ x ∈ xs, x.isNaN = false := by
  simp [propagatedNaN?, List.find?_eq_none]

theorem propagatedNaN?_pair {x y : BinaryFloat fmt} (hx : x.isNaN = false) (hy : y.isNaN = false) :
    propagatedNaN? [x, y] = none := by
  simp [propagatedNaN?_eq_none_iff, hx, hy]

theorem isNaN_of_isInfinite (h : x.isInfinite = true) : x.isNaN = false :=
  (isNaN_eq_false_iff x).2 ((isInfinite_iff_word x).1 h).le

/-- What is neither a NaN nor an infinity is finite. -/
theorem isFinite_of_not (hn : x.isNaN = false) (hi : x.isInfinite = false) : x.isFinite = true := by
  rw [isNaN_eq_false_iff] at hn
  rw [← Bool.not_eq_true, isInfinite_iff_word] at hi
  rw [isFinite_iff]
  omega

/-- Nothing is infinite that is nearest to a number below the overflow bound. -/
theorem IsNearestReal.isFinite_of_lt {v : ℝ} (h : IsNearestReal v x) (hlt : |v| < fmt.overflowBound) :
    x.isFinite = true := by
  refine isFinite_of_not h.not_isNaN (Bool.eq_false_iff.2 fun hinf => ?_)
  exact absurd (h.isInfinite_iff.1 hinf) (not_le.2 hlt)

theorem isFinite_of_mem {xs : List (BinaryFloat fmt)} (hnan : propagatedNaN? xs = none)
    (hx : x ∈ xs) (hi : x.isInfinite = false) : x.isFinite = true :=
  isFinite_of_not (propagatedNaN?_eq_none_iff.1 hnan x hx) hi

/-- The two zeros differ in their sign only. -/
theorem eq_zero_iff (sign : Bool) : x = zero sign ↔ x.isZero = true ∧ x.sign = sign := by
  constructor
  · rintro rfl
    exact ⟨rfl, rfl⟩
  · rintro ⟨hzero, hsign⟩
    rw [isZero, beq_iff_eq] at hzero
    exact ext_word hsign hzero

theorem isFinite_of_isZero (h : x.isZero = true) : x.isFinite = true := by
  have h0 : x.word = 0 := by simpa [isZero] using h
  rw [isFinite_iff, h0]
  exact fmt.infinityWord_pos

theorem isFinite_of_isInfinite (h : x.isInfinite = true) : x.isFinite = false := by
  rw [isInfinite_iff_word] at h
  rw [← Bool.not_eq_true, isFinite_iff]
  omega

theorem isFinite_of_isNaN (h : x.isNaN = true) : x.isFinite = false := by
  refine Bool.eq_false_iff.2 fun hf => ?_
  rw [isNaN_of_isFinite hf] at h
  cases h

theorem isZero_of_isInfinite (h : x.isInfinite = true) : x.isZero = false := by
  by_contra hz
  rw [isInfinite_of_isFinite (isFinite_of_isZero (by simpa using hz))] at h
  cases h

@[simp] theorem isInfinite_infinity (sign : Bool) : (infinity sign : BinaryFloat fmt).isInfinite = true :=
  (isInfinite_iff_word _).2 (word_ofWord le_rfl)

/-- An infinity is known by its sign. -/
theorem eq_infinity_of_isInfinite (h : x.isInfinite = true) : x = infinity x.sign :=
  ext_word rfl (((isInfinite_iff_word x).1 h).trans (word_ofWord le_rfl).symm)

/-! ## Values -/

/-- The least normal number. -/
theorem magnitude_hiddenBit (fmt : FloatFormat) : fmt.magnitude fmt.hiddenBit = 2 ^ fmt.minLead := by
  simpa using fmt.magnitude_bottom 0

/-- Apart from zero, what is not subnormal is no smaller than the least normal number. -/
theorem value_of_not_subnormal (h : x.isSubnormal = false) :
    (x.value : ℝ) = 0 ∨ 2 ^ fmt.minLead ≤ |(x.value : ℝ)| := by
  rcases Nat.eq_zero_or_pos x.word with h0 | hpos
  · left
    rw [(value_eq_zero_iff x).2 h0, Rat.cast_zero]
  · right
    have hword := ((isSubnormal_eq_false_iff x).1 h).resolve_left hpos.ne'
    have hle := fmt.magnitude_le_iff.2 hword
    rw [magnitude_hiddenBit, ← abs_value, ← Rat.cast_le (K := ℝ)] at hle
    push_cast at hle
    exact hle

theorem value_neg (x : BinaryFloat fmt) : (-x).value = -x.value := by
  show (if !x.sign then (-1 : ℚ) else 1) * fmt.magnitude x.word = _
  unfold value
  cases x.sign <;> simp

/-- Both zeros, and nothing else, have the value zero. -/
theorem isZero_iff_value (x : BinaryFloat fmt) : x.isZero = true ↔ x.value = 0 := by
  rw [value_eq_zero_iff, isZero, beq_iff_eq]

theorem value_of_isZero (h : x.isZero = true) : x.value = 0 := (isZero_iff_value x).1 h

theorem value_ne_zero (h : x.isZero = false) : x.value ≠ 0 := by
  rw [ne_eq, ← isZero_iff_value, Bool.not_eq_true]
  exact h

theorem isZero_of_value_ne_zero (h : x.value ≠ 0) : x.isZero = false :=
  Bool.eq_false_iff.2 (mt (isZero_iff_value x).1 h)

theorem magnitude_word_pos (h : x.isZero = false) : 0 < fmt.magnitude x.word :=
  fmt.magnitude_pos_iff.2 (Nat.pos_of_ne_zero ((isZero_eq_false_iff x).1 h))

theorem value_pos (hs : x.sign = false) (h : x.isZero = false) : 0 < x.value := by
  rw [value_of_sign_eq_false hs]
  exact magnitude_word_pos h

theorem value_lt_zero (hs : x.sign = true) (h : x.isZero = false) : x.value < 0 := by
  refine lt_of_le_of_ne ?_ (value_ne_zero h)
  rw [value, hs]
  simpa using fmt.magnitude_nonneg x.word

/-! ## Powers of two -/

theorem isFinite_powerOfTwo {e : ℤ} (hlow : fmt.minExp ≤ e) (hhigh : e ≤ fmt.maxLead) :
    (powerOfTwo e : BinaryFloat fmt).isFinite = true :=
  isFinite_ofWord (fmt.powerOfTwoWord_lt hlow hhigh)

/-- Powers of two between the least subnormal number and the greatest binade are values of the format. -/
theorem value_powerOfTwo {e : ℤ} (hlow : fmt.minExp ≤ e) (hhigh : e ≤ fmt.maxLead) :
    (powerOfTwo e : BinaryFloat fmt).value = 2 ^ e := by
  rw [powerOfTwo, value_ofWord_false (fmt.powerOfTwoWord_lt hlow hhigh), fmt.magnitude_powerOfTwoWord hlow]

theorem isFinite_one : (one : BinaryFloat fmt).isFinite = true :=
  isFinite_powerOfTwo fmt.minExp_nonpos (Int.natCast_nonneg _)

theorem value_one : (one : BinaryFloat fmt).value = 1 :=
  (value_powerOfTwo fmt.minExp_nonpos (Int.natCast_nonneg _)).trans (zpow_zero 2)

theorem powerOfTwo_minExp : (powerOfTwo fmt.minExp : BinaryFloat fmt) = leastNonzero := by
  have hfraction := fmt.one_le_fractionBits
  unfold powerOfTwo FloatFormat.powerOfTwoWord FloatFormat.minExp
  rw [if_neg (by omega), sub_self]
  rfl

theorem isFinite_leastNonzero : (leastNonzero : BinaryFloat fmt).isFinite = true := by
  rw [← powerOfTwo_minExp]
  exact isFinite_powerOfTwo le_rfl (fmt.minExp_nonpos.trans (Int.natCast_nonneg _))

theorem value_leastNonzero : (leastNonzero : BinaryFloat fmt).value = 2 ^ fmt.minExp := by
  rw [← powerOfTwo_minExp]
  exact value_powerOfTwo le_rfl (fmt.minExp_nonpos.trans (Int.natCast_nonneg _))

theorem value_leastNormal : (leastNormal : BinaryFloat fmt).value = 2 ^ fmt.minLead := by
  rw [value_of_sign_eq_false rfl, leastNormal, word_ofWord (hiddenBit_le_infinityWord fmt),
    magnitude_hiddenBit]

/-- All bits of the significand of the greatest number are set, and its last place is that of
`2^(bias - fractionBits)`. -/
theorem value_greatestFinite_eq (fmt : FloatFormat) : (greatestFinite : BinaryFloat fmt).value =
    (2 * fmt.hiddenBit - 1 : ℕ) * 2 ^ ((fmt.bias : ℤ) - fmt.fractionBits) := by
  have hbias := fmt.one_le_bias
  have hbit := fmt.two_le_hiddenBit
  have hword : fmt.infinityWord - 1 = (2 * fmt.bias - 1) * fmt.hiddenBit + (2 * fmt.hiddenBit - 1) := by
    obtain ⟨b, hb⟩ := Nat.exists_eq_add_of_le' hbias
    rw [fmt.infinityWord_eq, hb, show 2 * (b + 1) + 1 = 2 * (b + 1) - 1 + 2 by omega, Nat.add_mul]
    omega
  rw [value_greatestFinite, hword, fmt.magnitude_binade (Or.inr (by omega)) (by omega)]
  congr 2
  rw [fmt.minExp_eq]
  omega

/-! ## What is read -/

/-- A mode that flushes reads what is not subnormal as the gradual mode does. -/
theorem unpack_of_plain (h : mode = .gradual ∨ x.isSubnormal = false) :
    x.unpack mode = x.unpack .gradual := by
  rcases h with rfl | h
  · rfl
  · unfold unpack
    split
    · next h0 =>
      have hfraction : x.fractionField = 0 := by simpa [isSubnormal, h0] using h
      simp [hfraction]
    · rfl

/-- Off subnormal operands the two modes read alike. -/
theorem readsAsZero_of_plain (h : mode = .gradual ∨ x.isSubnormal = false) :
    x.readsAsZero mode = x.isZero := by
  rcases h with rfl | h
  · simp [readsAsZero]
  · simp [readsAsZero, h]

theorem readsAsZero_gradual (x : BinaryFloat fmt) : x.readsAsZero .gradual = x.isZero :=
  readsAsZero_of_plain (Or.inl rfl)

/-- Unpacking loses nothing of a number. -/
theorem value_unpack (x : BinaryFloat fmt) : (x.unpack .gradual).value = x.value := by
  unfold Unpacked.value value
  rw [unpack_sign, magnitude_unpack]

theorem value_mul_unpack (x y : BinaryFloat fmt) :
    ((x.unpack .gradual).mul (y.unpack .gradual)).value = x.value * y.value := by
  rw [Unpacked.value_mul, value_unpack, value_unpack]

/-- An unpacked operand stands for its value with no sticky bit. -/
theorem standsFor_unpack (x : BinaryFloat fmt) : (x.unpack .gradual).StandsFor false x.value := by
  rw [← value_unpack]
  exact Unpacked.standsFor_value _

theorem unpack_sig_eq_zero (x : BinaryFloat fmt) : (x.unpack .gradual).sig = 0 ↔ x.isZero = true := by
  rw [unpack_sig_eq_zero_iff, isZero, beq_iff_eq]

theorem unpack_sig_ne_zero (h : x.isZero = false) : (x.unpack .gradual).sig ≠ 0 :=
  mt (unpack_sig_eq_zero x).1 (Bool.eq_false_iff.1 h)

/-- The leading bit of a significand is among the bits of the precision. -/
theorem log2_unpack_sig_lt (h : x.isZero = false) : (x.unpack .gradual).sig.log2 < fmt.precision := by
  rw [Nat.log2_lt (unpack_sig_ne_zero h), FloatFormat.precision, pow_succ']
  exact unpack_sig_lt x

/-- The exponent of the leading bit compares with a power of two as the number does. -/
theorem leadExp_unpack_lt_iff (h : x.isZero = false) (e : ℤ) :
    (x.unpack .gradual).leadExp < e ↔ fmt.magnitude x.word < 2 ^ e := by
  rw [(standsFor_unpack x).magnitude.leadExp_lt_iff (unpack_sig_ne_zero h), ← abs_value,
    ← Rat.cast_lt (K := ℝ)]
  push_cast
  rfl

theorem value_of_positive (hs : x.sign = false) :
    x.value = (x.unpack .gradual).sig * 2 ^ (x.unpack .gradual).exp := by
  rw [value_of_sign_eq_false hs, magnitude_unpack]

/-! ## Sizes -/

theorem unpack_sig_lt_two_pow_128 (x : BinaryFloat fmt) : (x.unpack .gradual).sig < 2 ^ 128 :=
  (unpack_sig_lt_two_pow x).trans (by decide)

theorem unpack_sig_lt_two_pow_125 (x : BinaryFloat fmt) : (x.unpack .gradual).sig < 2 ^ 125 :=
  (unpack_sig_lt_two_pow x).trans (by decide)

theorem unpack_sig_lt_two_pow_64 (x : BinaryFloat fmt) : (x.unpack .gradual).sig < 2 ^ 64 :=
  (unpack_sig_lt_two_pow x).trans (by decide)

/-- The product of two significands leaves room above for the sums of the fused product. -/
theorem mul_sig_lt (x y : BinaryFloat fmt) :
    ((x.unpack .gradual).mul (y.unpack .gradual)).sig < 2 ^ 125 :=
  (Nat.mul_lt_mul'' (unpack_sig_lt_two_pow x) (unpack_sig_lt_two_pow y)).trans (by decide)

theorem bits_le {fmt : FloatFormat} {sig bits : ℕ} (h : 2 ^ bits ≤ sig) (hbits : 53 ≤ bits) :
    2 ^ (fmt.fractionBits + 1) ≤ sig := by
  have := fmt.fractionBits_le
  exact le_trans (Nat.pow_le_pow_right (by decide) (by omega)) h

end BinaryFloat

end MachineNumbers
