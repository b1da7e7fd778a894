import Mathlib
import MachineNumbers.Proofs.Representable
import MachineNumbers.Proofs.Stride

/-!
# How often an element of a stride is rounded

The fused sum of an element is rounded once, but its index has become a float before that.  An index that is
a number of the format stays what it is, and the element is the exact one rounded
(`isRounding_of_represents`).  Of another one the multiple of the step is that of a rounded index, and some
stride tells: minus that float and in steps of one, the element is zero, but the exact number is not
(`not_roundsElementOnce_of_lt`).  An index that overflows takes every element to infinity, which is right only
if no stride can avoid that (`roundsElementOnce_iff`).

The elements are those of the default build, whose native mode keeps subnormal numbers.
-/

namespace MachineNumbers

namespace BinaryFloat

variable {fmt : FloatFormat} {x : BinaryFloat fmt} {q : ℚ} {i : ℕ}

/-! ## Constants -/

theorem two_pow_minExp_le_abs_value (h : x.isZero = false) : (2 : ℚ) ^ fmt.minExp ≤ |x.value| := by
  rw [← fmt.magnitude_one, abs_value, fmt.magnitude_le_iff]
  exact Nat.pos_of_ne_zero ((isZero_eq_false_iff x).1 h)

/-! ## Indices -/

theorem isInfinite_ofInt_iff (hi : i < 2 ^ 64) :
    (ofInt i : BinaryFloat fmt).isInfinite = true ↔ fmt.overflowBound ≤ i := by
  rw [(index_isRounding hi).isInfinite_iff, abs_of_nonneg (Nat.cast_nonneg i)]
  exact_mod_cast Iff.rfl

theorem isFinite_ofInt_of_lt (hi : i < 2 ^ 64) (hbound : i < fmt.overflowBound) :
    (ofInt i : BinaryFloat fmt).isFinite = true := by
  refine isFinite_of_not (isNaN_ofInt i) ?_
  rw [← Bool.not_eq_true, isInfinite_ofInt_iff hi]
  exact not_le.2 hbound

/-- An index that is a number of the format is not rounded. -/
theorem ofInt_of_represents (hi : i < 2 ^ 64) (h : fmt.Represents i) :
    (ofInt i : BinaryFloat fmt).isFinite = true ∧ (ofInt i : BinaryFloat fmt).value = i := by
  refine IsNearestReal.value_eq ?_ h
  rw [Rat.cast_natCast]
  exact (index_isRounding hi).toIsNearestReal

/-- Infinity is nearest to what lies beyond the overflow bound. -/
theorem isNearest_infinity {sign : Bool} (h : fmt.overflowBound ≤ |q|) (hsign : sign = true ↔ q < 0) :
    IsNearest q (infinity sign : BinaryFloat fmt) := by
  have hinfinite := @isInfinite_infinity fmt sign
  have hfinite := isFinite_of_isInfinite hinfinite
  refine ⟨isNaN_of_isInfinite hinfinite, iff_of_true hinfinite h, fun _ => hsign, fun y hx => ?_,
    fun y hx => ?_⟩
  all_goals exact absurd (hfinite.symm.trans hx) Bool.false_ne_true

/-- Zero is not the number of the format nearest to a multiple of the least one. -/
theorem IsNearest.ne_zero_of_multiple {k : ℤ} (hk : k ≠ 0) (h : IsNearest (k * 2 ^ fmt.minExp) x)
    (hx : x.isFinite = true) : x.value ≠ 0 := by
  intro h0
  have hunit : (0 : ℚ) < 2 ^ fmt.minExp := by positivity
  have hnearer : ∀ y : BinaryFloat fmt, y.isFinite = true → |(k : ℚ)| * 2 ^ fmt.minExp ≤
      |y.value - k * 2 ^ fmt.minExp| := by
    intro y hy
    have := h.nearest y hx hy
    rwa [h0, zero_sub, abs_neg, abs_mul, abs_of_pos hunit] at this
  rcases lt_or_gt_of_ne hk with hneg | hpos
  · have hk1 : (k : ℚ) ≤ -1 := by exact_mod_cast Int.le_sub_one_of_lt hneg
    have := hnearer (-leastNonzero) isFinite_leastNonzero
    rw [value_neg, value_leastNonzero, abs_of_neg (by linarith),
      show -(2 : ℚ) ^ fmt.minExp - k * 2 ^ fmt.minExp = (-1 - k) * 2 ^ fmt.minExp by ring,
      abs_mul, abs_of_pos hunit, abs_of_nonneg (by linarith), mul_le_mul_iff_left₀ hunit] at this
    linarith
  · have hk1 : (1 : ℚ) ≤ k := by exact_mod_cast hpos
    have := hnearer leastNonzero isFinite_leastNonzero
    rw [value_leastNonzero, abs_of_pos (by linarith),
      show (2 : ℚ) ^ fmt.minExp - k * 2 ^ fmt.minExp = -((k - 1) * 2 ^ fmt.minExp) by ring, abs_neg,
      abs_mul, abs_of_pos hunit, abs_of_nonneg (by linarith), mul_le_mul_iff_left₀ hunit] at this
    linarith

/-- An index is a whole number of steps from its float, and not none if it has been rounded. -/
theorem exists_multiple_sub_ofInt (h : (ofInt i : BinaryFloat fmt).value ≠ i) :
    ∃ k : ℤ, k ≠ 0 ∧ (i : ℚ) - (ofInt i : BinaryFloat fmt).value = k * 2 ^ fmt.minExp := by
  obtain ⟨k, hk⟩ := FloatFormat.exists_multiple (minExp_le_unpack (ofInt i : BinaryFloat fmt))
  obtain ⟨d, hd⟩ := Int.eq_ofNat_of_zero_le (Int.neg_nonneg.2 fmt.minExp_nonpos)
  have hi : (i : ℚ) = (i * 2 ^ d : ℤ) * 2 ^ fmt.minExp := by
    push_cast
    rw [mul_assoc, ← zpow_natCast, ← zpow_add₀ (by norm_num), ← hd, neg_add_cancel, zpow_zero, mul_one]
  refine ⟨i * 2 ^ d - k, fun h0 => h ?_, ?_⟩
  · rw [hk, hi, ← sub_eq_zero.1 h0]
  · rw [hk, Int.cast_sub, sub_mul, ← hi]

end BinaryFloat

open BinaryFloat

/-- Element `i` of a stride of numbers, wherever it is reached, is its exact number rounded once. -/
def FloatFormat.RoundsElementOnce (fmt : FloatFormat) (i : ℕ) : Prop :=
  ∀ (start stop step : BinaryFloat fmt) (inclusive : Bool) (s : Stride fmt) (n : ℕ) (x : BinaryFloat fmt),
    Stride.make start stop step inclusive = .ok s → start.isFinite = true → step.isFinite = true →
    (s.take n).1[i]? = some x → IsNearest (start.value + i * step.value) x

namespace Stride

variable {fmt : FloatFormat} {start stop step x : BinaryFloat fmt} {inclusive : Bool} {s : Stride fmt}
  {i n : ℕ}

/-! ## Elements that are reached -/

theorem eq_element_of_getElem? (hmake : make start stop step inclusive = .ok s)
    (hx : (s.take n).1[i]? = some x) : i < 2 ^ 64 ∧ x = s.element i := by
  have hrun := run_of_make hmake n
  have hi := (List.getElem?_eq_some_iff.1 hx).1
  have hindex := hrun.index_le
  rw [hrun.elements, List.getElem?_map, List.getElem?_range' hi] at hx
  refine ⟨by omega, ?_⟩
  simpa using hx.symm

/-- A stride without NaNs toward infinity reaches each of its elements. -/
theorem getElem?_take_of_infinite (start step : BinaryFloat fmt) (hstart : start.isFinite = true)
    (hstep : step.isFinite = true) (hzero : step.isZero = false) (hi : i < 2 ^ 64) :
    ∃ s, make start (infinity step.sign) step true = .ok s ∧
      (s.take (i + 1)).1[i]? = some (s.element i) := by
  have hmake : make start (infinity step.sign) step true =
      .ok ⟨start, step, infinity step.sign, true, some 0⟩ := by
    simp [make, hzero]
  refine ⟨_, hmake, ?_⟩
  have hrun := run_of_make hmake (i + 1)
  set s : Stride fmt := ⟨start, step, infinity step.sign, true, some 0⟩
  have hwithin : ∀ j, s.isPast (s.element j) = false := by
    intro j
    refine (s.isPast_eq_false_iff _).2 ⟨not_isNaN_element hstart hstep hzero j, isNaN_ofWord le_rfl, ?_⟩
    rw [if_pos rfl]
    exact le_top.trans_eq s.along_infinity.symm
  have hlength : i < (s.take (i + 1)).1.length := by
    by_contra hle
    cases hended : (s.take (i + 1)).2.1 with
    | true =>
      have hpast := (hrun.of_ended hended).2 (by omega)
      exact Bool.false_ne_true ((hwithin _).symm.trans hpast)
    | false =>
      have := hrun.of_not_ended hended
      omega
  rw [hrun.elements, List.getElem?_map, List.getElem?_range' hlength]
  simp

/-! ## Roundings -/

/-- Below the overflow bound an element is the rounded sum with a rounded index. -/
theorem isRounding_of_lt (hmake : make start stop step inclusive = .ok s) (hstart : start.isFinite = true)
    (hstep : step.isFinite = true) (hx : (s.take n).1[i]? = some x) (hbound : i < fmt.overflowBound) :
    IsRounding (start.value + (ofInt i : BinaryFloat fmt).value * step.value : ℚ) x := by
  obtain ⟨hi, rfl⟩ := eq_element_of_getElem? hmake hx
  obtain ⟨-, rfl⟩ := make_eq_ok hmake
  exact element_isRounding (s := ⟨start, step, stop, inclusive, some 0⟩) hstart hstep
    (isFinite_ofInt_of_lt hi hbound)

/-- At an index that is a number of the format, an element is the exact number rounded once. -/
theorem isRounding_of_represents (hmake : make start stop step inclusive = .ok s)
    (hstart : start.isFinite = true) (hstep : step.isFinite = true) (hx : (s.take n).1[i]? = some x)
    (h : fmt.Represents i) : IsRounding (start.value + i * step.value : ℚ) x := by
  have hi := (eq_element_of_getElem? hmake hx).1
  have hbound := (le_abs_self _).trans_lt h.abs_lt
  have hround := isRounding_of_lt hmake hstart hstep hx hbound
  rwa [(ofInt_of_represents hi h).2] at hround

/-- From the overflow bound on, an element is infinite. -/
theorem eq_infinity_of_le (hmake : make start stop step inclusive = .ok s) (hstart : start.isFinite = true)
    (hstep : step.isFinite = true) (hx : (s.take n).1[i]? = some x) (hbound : fmt.overflowBound ≤ i) :
    x = infinity step.sign := by
  obtain ⟨hi, rfl⟩ := eq_element_of_getElem? hmake hx
  obtain ⟨hzero, rfl⟩ := make_eq_ok hmake
  exact element_of_overflow hstep hzero ((isInfinite_ofInt_iff hi).2 hbound)
    (not_isNaN_element hstart hstep hzero i)

/-- In steps of one from minus the float of an index, its element is zero. -/
theorem not_roundsElementOnce_of_lt (hi : i < 2 ^ 64) (hbound : i < fmt.overflowBound)
    (h : ¬fmt.Represents i) : ¬fmt.RoundsElementOnce i := by
  intro honce
  have hfinite := isFinite_ofInt_of_lt hi hbound
  have hzero : (one : BinaryFloat fmt).isZero = false :=
    isZero_of_value_ne_zero (by rw [value_one]; exact one_ne_zero)
  obtain ⟨s, hmake, hx⟩ := getElem?_take_of_infinite (-ofInt i) one hfinite isFinite_one hzero hi
  have hround := isRounding_of_lt hmake hfinite isFinite_one hx hbound
  rw [value_neg, value_one, mul_one, neg_add_cancel] at hround
  have hvalue := hround.toIsNearestReal.value_eq (FloatFormat.represents_zero fmt)
  have hexact := honce _ _ _ _ _ _ _ hmake hfinite isFinite_one hx
  obtain ⟨k, hk, hsub⟩ := exists_multiple_sub_ofInt fun hvalue => h ⟨_, hfinite, hvalue⟩
  rw [value_neg, value_one, mul_one, neg_add_eq_sub, hsub] at hexact
  exact hexact.ne_zero_of_multiple hk hvalue.1 hvalue.2

/-- In the least steps from minus the greatest number, an element need not overflow where its index does. -/
theorem not_roundsElementOnce_of_le (hi : i < 2 ^ 64) (hbound : fmt.overflowBound ≤ i)
    (h : i * 2 ^ fmt.minExp < fmt.overflowBound + (greatestFinite : BinaryFloat fmt).value) :
    ¬fmt.RoundsElementOnce i := by
  intro honce
  have hfinite := @isFinite_greatestFinite fmt
  have hzero : (leastNonzero : BinaryFloat fmt).isZero = false :=
    isZero_of_value_ne_zero (by rw [value_leastNonzero]; positivity)
  obtain ⟨s, hmake, hx⟩ := getElem?_take_of_infinite (-greatestFinite) leastNonzero hfinite
    isFinite_leastNonzero hzero hi
  have hinfinity := eq_infinity_of_le hmake hfinite isFinite_leastNonzero hx hbound
  have hexact := honce _ _ _ _ _ _ _ hmake hfinite isFinite_leastNonzero hx
  rw [hinfinity, value_neg, value_leastNonzero] at hexact
  have hoverflow := hexact.isInfinite_iff.1 (isInfinite_infinity _)
  have hgreatest : (greatestFinite : BinaryFloat fmt).value < fmt.overflowBound :=
    value_greatestFinite.trans_lt (magnitude_lt_overflowBound (Nat.sub_lt fmt.infinityWord_pos Nat.one_pos))
  have hpos : (0 : ℚ) ≤ i * 2 ^ fmt.minExp := by positivity
  exact absurd hoverflow (not_le.2 (abs_lt.2 ⟨by linarith, by linarith⟩))

/-- Where the least multiple of the index overflows even from the farthest start, so does every sum. -/
theorem isNearest_infinity_of_le (hstart : start.isFinite = true) (hzero : step.isZero = false)
    (h : fmt.overflowBound + (greatestFinite : BinaryFloat fmt).value ≤ i * 2 ^ fmt.minExp) :
    IsNearest (start.value + i * step.value) (infinity step.sign : BinaryFloat fmt) := by
  have hle := abs_le.1 (abs_value_le_greatestFinite hstart)
  have hmultiple : fmt.overflowBound + (greatestFinite : BinaryFloat fmt).value ≤ i * |step.value| :=
    h.trans (mul_le_mul_of_nonneg_left (two_pow_minExp_le_abs_value hzero) (Nat.cast_nonneg i))
  have hpos : 0 < fmt.overflowBound :=
    (fmt.magnitude_nonneg 0).trans_lt (magnitude_lt_overflowBound fmt.infinityWord_pos)
  cases hsign : step.sign with
  | false =>
    rw [abs_of_pos (value_pos hsign hzero)] at hmultiple
    exact isNearest_infinity ((by linarith : fmt.overflowBound ≤ _).trans (le_abs_self _))
      (iff_of_false Bool.false_ne_true (by linarith))
  | true =>
    rw [abs_of_neg (value_lt_zero hsign hzero)] at hmultiple
    exact isNearest_infinity ((by linarith : fmt.overflowBound ≤ _).trans (neg_le_abs _))
      (iff_of_true rfl (by linarith))

/-- Only some indices have elements that are rounded once: those that are numbers of the format, those at
which every sum overflows, and those that no stride reaches.  At any other index some stride yields an element
that is not the float nearest to the exact number. -/
theorem roundsElementOnce_iff (fmt : FloatFormat) (i : ℕ) : fmt.RoundsElementOnce i ↔
    2 ^ 64 ≤ i ∨ fmt.Represents i ∨
      fmt.overflowBound + (greatestFinite : BinaryFloat fmt).value ≤ i * 2 ^ fmt.minExp := by
  constructor
  · intro honce
    by_contra hcases
    simp only [not_or, not_le] at hcases
    obtain ⟨hi, hrepresents, hlt⟩ := hcases
    rcases lt_or_ge (i : ℚ) fmt.overflowBound with hbound | hbound
    · exact not_roundsElementOnce_of_lt hi hbound hrepresents honce
    · exact not_roundsElementOnce_of_le hi hbound hlt honce
  · rintro hcases start stop step inclusive s n x hmake hstart hstep hx
    have hi := (eq_element_of_getElem? hmake hx).1
    rcases hcases with hindex | hrepresents | hle
    · exact absurd hi (not_lt.2 hindex)
    · exact isNearestReal_cast_iff.1
        (isRounding_of_represents hmake hstart hstep hx hrepresents).toIsNearestReal
    · have hunit : (2 : ℚ) ^ fmt.minExp ≤ 1 := zpow_le_one_of_nonpos₀ (by norm_num) fmt.minExp_nonpos
      have hgreatest := (abs_nonneg _).trans (abs_value_le_greatestFinite hstart)
      have hbound : fmt.overflowBound ≤ i := by
        have := mul_le_mul_of_nonneg_left hunit (Nat.cast_nonneg (α := ℚ) i)
        linarith
      rw [eq_infinity_of_le hmake hstart hstep hx hbound]
      exact isNearest_infinity_of_le hstart (make_eq_ok hmake).1 hle

/-- With a single fraction bit the index five is rounded to four, and the element in steps of one from one is
four, although six is a number of the format. -/
theorem take_not_isNearest_six :
    let fmt : FloatFormat := { exponentBits := 6, fractionBits := 1 }
    let s : Stride fmt := ⟨one, one, ofBits 0x45, false, some 0⟩
    make one (ofBits 0x45) one false = .ok s ∧ (one : BinaryFloat fmt).isFinite = true ∧
      (s.take 6).1[5]? = some (ofBits 0x42) ∧
      ¬IsNearest ((one : BinaryFloat fmt).value + 5 * (one : BinaryFloat fmt).value)
        (ofBits 0x42 : BinaryFloat fmt) := by
  intro fmt s
  refine ⟨rfl, isFinite_one, by decide +kernel, fun h => ?_⟩
  have hfour : (ofBits 0x42 : BinaryFloat fmt).value = 4 := by decide +kernel
  have hsix : (ofBits 0x43 : BinaryFloat fmt).value = 6 := by decide +kernel
  have hnear := h.nearest (ofBits 0x43) (by decide) (by decide)
  rw [hfour, hsix, value_one] at hnear
  norm_num at hnear

end Stride

end MachineNumbers
