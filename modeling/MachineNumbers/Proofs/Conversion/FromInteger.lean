import Mathlib
import MachineNumbers.Proofs.Conversion.ToInteger
import MachineNumbers.Proofs.Representable

/-!
# Integers become floats by rounding

An integer is packed as a significand at exponent zero, so its float is the integer rounded once
(`ofInt_isRounding`).  Whether the float is the integer itself is decided beforehand: with enough trailing
zeros the bits that are left fit the precision (`le_trailingZeroCount_iff`), and below the overflow exponent
they are a number of the format (`holdsExactly_iff`).  Where nothing is lost, the integer comes back from its
float (`fromInteger_rounded`).

Integers are packed in the native mode of the default build, but no integer lies between zero and the least
normal number, so that a mode that flushes would pack them alike (`roundPack_integer`).
-/

namespace MachineNumbers

/-! ## Trailing zeros -/

theorem le_length_takeWhile_range {p : ℕ → Bool} {d count : ℕ} (hd : d ≤ count) :
    d ≤ ((List.range count).takeWhile p).length ↔ ∀ i < d, p i = true := by
  rw [List.takeWhile_eq_take_findIdx_not, List.length_take, List.length_range, le_min_iff,
    and_iff_left hd]
  cases d with
  | zero => simp
  | succ k =>
    simp only [Nat.succ_le_iff, List.lt_findIdx_iff, List.length_range, List.getElem_range,
      Bool.not_eq_false', Nat.lt_succ_iff]
    exact ⟨fun ⟨_, h⟩ => h, fun h => ⟨hd, h⟩⟩

namespace BinaryFloat

variable {fmt : FloatFormat} {ty : IntType} {v : ℤ} {n d count : ℕ}

theorem le_trailingZeroCount_iff (hd : d ≤ count) : d ≤ trailingZeroCount n count ↔ 2 ^ d ∣ n := by
  unfold trailingZeroCount
  rw [le_length_takeWhile_range hd, two_pow_dvd_iff]
  simp only [Bool.not_eq_true']

/-! ## Numbers of the format -/

/-- Without trailing zeros, what is left fits the precision. -/
theorem represents_of_dvd (hlead : (v.natAbs.log2 : ℤ) ≤ fmt.maxLead)
    (hdvd : 2 ^ (v.natAbs.log2 + 1 - fmt.precision) ∣ v.natAbs) : fmt.Represents v := by
  have hlt : v.natAbs < 2 ^ (v.natAbs.log2 + 1) := Nat.lt_log2_self
  have habs : |(v : ℚ)| = v.natAbs := by rw [Nat.cast_natAbs, Int.cast_abs]
  generalize hd : v.natAbs.log2 + 1 - fmt.precision = d at hdvd
  obtain ⟨k, hk⟩ := hdvd
  have hbits : k < 2 * fmt.hiddenBit := by
    rw [fmt.hiddenBit_eq, ← pow_succ']
    refine lt_of_mul_lt_mul_left (a := 2 ^ d) ?_ (Nat.zero_le _)
    rw [← hk, ← pow_add]
    refine hlt.trans_le (Nat.pow_le_pow_right (by decide) ?_)
    unfold FloatFormat.precision at hd
    omega
  refine FloatFormat.represents_of_sig hbits (fmt.minExp_nonpos.trans (Int.natCast_nonneg d)) ?_ ?_
  · rw [habs, hk, zpow_natCast]
    push_cast
    ring
  · calc |(v : ℚ)| = v.natAbs := habs
      _ < 2 ^ (v.natAbs.log2 + 1) := by exact_mod_cast hlt
      _ = 2 ^ ((v.natAbs.log2 : ℤ) + 1) := by exact_mod_cast rfl
      _ ≤ 2 ^ (fmt.maxLead + 1) := zpow_le_zpow_right₀ (by norm_num) (by omega)

/-- The last place of a float that is an integer divides the integer. -/
theorem dvd_natAbs {x : BinaryFloat fmt} (hx : x.value = v) (hd : (d : ℤ) ≤ (x.unpack .gradual).exp) :
    2 ^ d ∣ v.natAbs := by
  obtain ⟨k, hk⟩ := FloatFormat.exists_multiple hd
  rw [hx, zpow_natCast] at hk
  have hv : v = k * 2 ^ d := by exact_mod_cast hk
  refine Dvd.intro_left k.natAbs ?_
  rw [hv, Int.natAbs_mul, Int.natAbs_pow]
  rfl

theorem dvd_of_represents (hv : v ≠ 0) (h : fmt.Represents v) :
    (v.natAbs.log2 : ℤ) ≤ fmt.maxLead ∧ 2 ^ (v.natAbs.log2 + 1 - fmt.precision) ∣ v.natAbs := by
  obtain ⟨x, hfinite, hx⟩ := h
  have hzero : x.isZero = false := isZero_of_value_ne_zero (by rw [hx]; exact_mod_cast hv)
  have hsig := log2_unpack_sig_lt hzero
  -- the leading bit of the float is that of the integer, and not past the greatest
  have hlow : ¬(x.unpack .gradual).leadExp < v.natAbs.log2 := by
    rw [leadExp_unpack_lt_iff hzero, not_lt, ← abs_value, hx, zpow_natCast, ← Int.cast_abs,
      Int.abs_eq_natAbs]
    exact_mod_cast Nat.log2_self_le (Int.natAbs_pos.2 hv).ne'
  have hhigh : (x.unpack .gradual).leadExp < fmt.maxLead + 1 := by
    rw [leadExp_unpack_lt_iff hzero, ← abs_value]
    exact abs_value_lt hfinite
  unfold Unpacked.leadExp at hlow hhigh
  refine ⟨by omega, ?_⟩
  rcases Nat.eq_zero_or_pos (v.natAbs.log2 + 1 - fmt.precision) with h0 | hpos
  · rw [h0, pow_zero]
    exact one_dvd _
  · exact dvd_natAbs hx (by omega)

/-- The integers that `holdsExactly` accepts are the numbers of the format. -/
theorem holdsExactly_iff (fmt : FloatFormat) (v : ℤ) :
    holdsExactly fmt v = true ↔ fmt.Represents v := by
  rcases eq_or_ne v 0 with rfl | hv
  · rw [Int.cast_zero]
    exact iff_of_true rfl (FloatFormat.represents_zero fmt)
  unfold holdsExactly
  have hn : v.natAbs ≠ 0 := (Int.natAbs_pos.2 hv).ne'
  have hcount : v.natAbs.log2 + 1 - trailingZeroCount v.natAbs (v.natAbs.log2 + 1) ≤ fmt.precision ↔
      2 ^ (v.natAbs.log2 + 1 - fmt.precision) ∣ v.natAbs := by
    rw [← le_trailingZeroCount_iff (Nat.sub_le ..)]
    omega
  simp only [beq_false_of_ne hn, Bool.false_or, Bool.and_eq_true, decide_eq_true_iff, hcount]
  exact ⟨fun h => represents_of_dvd h.2 h.1, fun h => (dvd_of_represents hv h).symm⟩

/-! ## Conversions -/

theorem ofInt_zero : (ofInt 0 : BinaryFloat fmt) = zero false := rfl

/-- Only zero lies below the least normal number of a format, so the mode does not matter. -/
theorem roundPack_integer (mode : SubnormalMode) (v : ℤ) :
    roundPack mode ⟨decide (v < 0), 0, v.natAbs⟩ false = (ofInt v : BinaryFloat fmt) := by
  have hone := fmt.one_le_bias
  have hmin : fmt.minLead = 1 - fmt.bias := rfl
  have hlead : ¬(⟨decide (v < 0), 0, v.natAbs⟩ : Unpacked).leadExp < fmt.minLead := by
    unfold Unpacked.leadExp
    dsimp only
    omega
  unfold ofInt roundPack
  rw [if_neg fun h : _ ∧ _ => hlead h.2, if_neg fun h : _ ∧ _ => hlead h.2]

theorem ofInt_isRounding (hv : v.natAbs < 2 ^ 128) : IsRounding (v : ℝ) (ofInt v : BinaryFloat fmt) := by
  have hstands := Unpacked.standsFor_value ⟨decide (v < 0), 0, v.natAbs⟩
  have hvalue : (⟨decide (v < 0), 0, v.natAbs⟩ : Unpacked).value = v := by
    unfold Unpacked.value
    rw [zpow_zero, mul_one, Nat.cast_natAbs]
    rcases lt_or_ge v 0 with hneg | hpos
    · simp [hneg, abs_of_neg hneg]
    · simp [hpos.not_gt, abs_of_nonneg hpos]
  rw [hvalue, Rat.cast_intCast] at hstands
  exact hstands.isRounding hv (by simp)

/-- The values of every type fit a significand. -/
theorem natAbs_value_lt (a : FixedInt ty) : a.value.natAbs < 2 ^ 128 := by
  have := a.fits_value.bounds
  omega

theorem ofIntExactly?_eq_some_iff {x : BinaryFloat fmt} :
    ofIntExactly? v = some x ↔ fmt.Represents v ∧ x = ofInt v := by
  unfold ofIntExactly?
  rw [← holdsExactly_iff]
  split
  · next h => simp [h, eq_comm]
  · next h => simp [h]

/-- Integers become floats by rounding, and those that are numbers of the format become exactly that: the
conversion that must be exact has a result for them only, which is the rounded one, has the value of the
integer and gives it back.  Both modes agree. -/
theorem fromInteger_rounded (fmt : FloatFormat) (a : FixedInt ty) :
    IsRounding (a.value : ℝ) (ofInt a.value : BinaryFloat fmt) ∧
    (a.value = 0 → (ofInt a.value : BinaryFloat fmt) = zero false) ∧
    ((ofIntExactly? a.value : Option (BinaryFloat fmt)).isSome = true ↔ fmt.Represents a.value) ∧
    (∀ x : BinaryFloat fmt, ofIntExactly? a.value = some x →
      x.isFinite = true ∧ x.value = a.value ∧ x = ofInt a.value ∧ x.toFixedIntExactly? ty = some a) ∧
    ∀ mode, roundPack mode ⟨decide (a.value < 0), 0, a.value.natAbs⟩ false =
      (ofInt a.value : BinaryFloat fmt) := by
  have hround := @ofInt_isRounding fmt a.value (natAbs_value_lt a)
  refine ⟨hround, fun h0 => ?_, ?_, fun x hx => ?_, fun mode => roundPack_integer mode a.value⟩
  · rw [h0]
    exact ofInt_zero
  · rw [Option.isSome_iff_exists]
    simp only [ofIntExactly?_eq_some_iff, exists_and_left, exists_eq, and_true]
  · obtain ⟨hrep, rfl⟩ := ofIntExactly?_eq_some_iff.1 hx
    rw [← Rat.cast_intCast] at hround
    obtain ⟨hfinite, hvalue⟩ := hround.toIsNearestReal.value_eq hrep
    exact ⟨hfinite, hvalue, rfl, (toFixedIntExactly?_eq_some_iff hfinite).2 hvalue⟩

/-- The least integer of 64 bits is a power of two, which has a single significant bit. -/
theorem fromInteger_rounded_minimum :
    let ty : IntType := { width := 64, signed := true }
    let a : FixedInt ty := .minimum
    let x : BinaryFloat .binary64 := -powerOfTwo 63
    (ofIntExactly? a.value = some x ∧ x.isFinite = true ∧ x.value = a.value ∧ x = ofInt a.value ∧
      x.toFixedIntExactly? ty = some a) ∧
    (FixedInt.zero : FixedInt ty).value = 0 ∧
    (ofInt (FixedInt.zero : FixedInt ty).value : BinaryFloat .binary64) = zero false := by
  intro ty a x
  have hx : ofIntExactly? a.value = some x := by decide +kernel
  have hzero : (FixedInt.zero : FixedInt ty).value = 0 := FixedInt.value_zero
  exact ⟨⟨hx, (fromInteger_rounded .binary64 a).2.2.2.1 x hx⟩, hzero,
    (fromInteger_rounded .binary64 FixedInt.zero).2.1 hzero⟩

end BinaryFloat

end MachineNumbers
