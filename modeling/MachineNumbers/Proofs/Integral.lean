import Mathlib
import MachineNumbers.BinaryFloat.Integral
import MachineNumbers.Proofs.ExactRemainder
import MachineNumbers.Proofs.Flushing

/-!
# Rounding picks the integer of its rule

`RoundingRule.Selects rule q n` says, of exact numbers, that the rule takes the integer `n` for `q`; there is
one only (`Selects.unique`).  The integral part and the rest of a significand tell where its number lies
between two integers (`splitAtPoint_splits`), which is all that a rule looks at, under either sign
(`Splits.selects`).  No integer next to a number with a fraction has more bits than the format keeps, so it
is packed exactly or overflows (`roundPack_isFloatOfInt`), and `rounded` gives the float of the integer that
the rule takes (`rounded_selects`).
-/

namespace MachineNumbers

/-! ## Rules -/

/-- `n` is the integer nearest to `q`, and the one farther from zero if another is as near. -/
structure IsNearestAway (q : ℚ) (n : ℤ) : Prop where
  nearest : ∀ m : ℤ, |q - n| ≤ |q - m|
  away_of_tie : ∀ m : ℤ, |q - m| = |q - n| → |m| ≤ |n|

/-- `n` is the integer that the rule takes for `q`. -/
def RoundingRule.Selects (rule : RoundingRule) (q : ℚ) (n : ℤ) : Prop :=
  match rule with
  | .toNearestOrAwayFromZero => IsNearestAway q n
  | .toNearestOrEven => IsNearestEven q n
  | .up => n = ⌈q⌉
  | .down => n = ⌊q⌋
  | .towardZero => n = if q < 0 then ⌈q⌉ else ⌊q⌋
  | .awayFromZero => n = if q < 0 then ⌊q⌋ else ⌈q⌉

theorem isNearestEven_of_dist_le {q : ℚ} {n : ℤ} (h : |q - n| ≤ 1 / 2)
    (heven : |q - n| = 1 / 2 → n % 2 = 0) : IsNearestEven q n :=
  nearestEven_eq h heven ▸ isNearestEven_nearestEven q

theorem isNearestAway_of_dist_le {q : ℚ} {n : ℤ} (h : |q - n| ≤ 1 / 2)
    (haway : |q - n| = 1 / 2 → |q| + 1 / 2 ≤ |(n : ℚ)|) : IsNearestAway q n where
  nearest m := by
    rcases eq_or_ne m n with rfl | hne
    · exact le_rfl
    · linarith [one_le_dist_add_dist q hne]
  away_of_tie m htie := by
    rcases eq_or_ne m n with rfl | hne
    · exact le_rfl
    have hhalf : |q - n| = 1 / 2 := by linarith [one_le_dist_add_dist q hne]
    have hle : |(m : ℚ)| ≤ |(n : ℚ)| := by
      calc |(m : ℚ)| = |q - (q - m)| := by rw [sub_sub_cancel]
        _ ≤ |q| + |q - m| := abs_sub _ _
        _ = |q| + 1 / 2 := by rw [htie, hhalf]
        _ ≤ |(n : ℚ)| := haway hhalf
    exact_mod_cast hle

/-- Two integers that are nearest to one number are neighbours, if they differ. -/
theorem abs_sub_le_one_of_nearest {q : ℚ} {n k : ℤ} (hn : ∀ m : ℤ, |q - n| ≤ |q - m|)
    (hk : ∀ m : ℤ, |q - k| ≤ |q - m|) : |n - k| ≤ 1 := by
  have hhalf := (nearestEven_spec q).1
  have hn' := (hn (nearestEven q)).trans hhalf
  have hk' := (hk (nearestEven q)).trans hhalf
  have hdist : |(n : ℚ) - k| ≤ 1 := by
    calc |(n : ℚ) - k| ≤ |(n : ℚ) - q| + |q - k| := abs_sub_le _ _ _
      _ = |q - n| + |q - k| := by rw [abs_sub_comm (n : ℚ)]
      _ ≤ 1 := by linarith
  exact_mod_cast hdist

/-- A rule takes one integer only. -/
theorem RoundingRule.Selects.unique {rule : RoundingRule} {q : ℚ} {n k : ℤ} (hn : rule.Selects q n)
    (hk : rule.Selects q k) : n = k := by
  cases rule with
  | toNearestOrAwayFromZero =>
    have htie : |q - n| = |q - k| := le_antisymm (hn.nearest k) (hk.nearest n)
    have hmagnitude := le_antisymm (hk.away_of_tie n htie) (hn.away_of_tie k htie.symm)
    have hdist := abs_sub_le_one_of_nearest hn.nearest hk.nearest
    rcases abs_eq_abs.1 hmagnitude with h | h
    · exact h
    · rw [abs_le] at hdist
      omega
  | toNearestOrEven =>
    by_contra hne
    have htie : |q - n| = |q - k| := le_antisymm (hn.nearest k) (hk.nearest n)
    have hneven := Int.even_iff.1 (hn.even_of_tie k (Ne.symm hne) htie.symm)
    have hkeven := Int.even_iff.1 (hk.even_of_tie n hne htie)
    have hdist := abs_le.1 (abs_sub_le_one_of_nearest hn.nearest hk.nearest)
    omega
  | up | down | towardZero | awayFromZero => exact hn.trans hk.symm

/-! ## Between two integers -/

/-- The integral part of a number, and a rest that compares with one half as its fraction does. -/
structure Splits (v : ℚ) (integral rest half : ℕ) : Prop where
  le : integral ≤ v
  lt : v < integral + 1
  rest_eq_zero : rest = 0 ↔ v = integral
  half_lt : half < rest ↔ integral + 1 / 2 < v
  rest_eq_half : rest = half ↔ v = integral + 1 / 2

theorem splits_natCast (n : ℕ) : Splits n n 0 1 where
  le := le_rfl
  lt := by linarith
  rest_eq_zero := by simp
  half_lt := by simp
  rest_eq_half := by simp

/-- A positive number below one half, with any rest that is less than half its unit. -/
theorem splits_of_lt_half {v : ℚ} (hpos : 0 < v) (hhalf : v < 1 / 2) : Splits v 0 1 2 where
  le := by simpa using hpos.le
  lt := by simpa using hhalf.trans (by norm_num)
  rest_eq_zero := by simpa using hpos.ne'
  half_lt := by simpa using hhalf.le
  rest_eq_half := by simpa using hhalf.ne

/-- Quotient and remainder of a division by an even number. -/
theorem splits_div (n : ℕ) {half : ℕ} (hhalf : 0 < half) :
    Splits (n / (2 * half : ℕ)) (n / (2 * half)) (n % (2 * half)) half := by
  have hpos : (0 : ℚ) < (2 * half : ℕ) := by positivity
  have hrest : n % (2 * half) < 2 * half := Nat.mod_lt n (by omega)
  have hsum : (n : ℚ) / (2 * half : ℕ) =
      (n / (2 * half) : ℕ) + (n % (2 * half) : ℕ) / (2 * half : ℕ) := by
    rw [eq_comm, ← mul_right_inj' hpos.ne', mul_add, mul_div_cancel₀ _ hpos.ne',
      mul_div_cancel₀ _ hpos.ne']
    exact_mod_cast Nat.div_add_mod n (2 * half)
  have hone : (1 / 2 : ℚ) = half / (2 * half : ℕ) := by
    rw [Nat.cast_mul, Nat.cast_ofNat, div_mul_cancel_right₀ (by positivity), one_div]
  rw [hsum]
  refine ⟨?_, ?_, ?_, ?_, ?_⟩
  · rw [le_add_iff_nonneg_right]
    positivity
  · rw [add_lt_add_iff_left, div_lt_one hpos]
    exact_mod_cast hrest
  · simp [hhalf.ne']
  · rw [hone, add_lt_add_iff_left, div_lt_div_iff_of_pos_right hpos, Nat.cast_lt]
  · rw [hone, add_right_inj, div_left_inj' hpos.ne', Nat.cast_inj]

/-- A shift to the right and the bits that it drops. -/
theorem splits_shiftRight (n : ℕ) {shift : ℕ} (hshift : 0 < shift) :
    Splits (n / 2 ^ shift) (n >>> shift) (n % 2 ^ shift) (2 ^ (shift - 1)) := by
  have hpow : (2 : ℕ) ^ shift = 2 * 2 ^ (shift - 1) := by
    rw [← pow_succ']
    congr 1
    omega
  have h := splits_div n (Nat.two_pow_pos (shift - 1))
  rw [← hpow, Nat.cast_pow, Nat.cast_ofNat] at h
  rw [Nat.shiftRight_eq_div_pow]
  exact h

/-- A significand of few bits, shifted by more of them, is less than a half. -/
theorem splits_of_far {sig shift : ℕ} (h0 : sig ≠ 0) (hlt : sig < 2 ^ 63) (hshift : 64 ≤ shift) :
    Splits (sig / 2 ^ shift) 0 1 2 := by
  have hsig : (0 : ℚ) < sig := by exact_mod_cast Nat.pos_of_ne_zero h0
  refine splits_of_lt_half (by positivity) ?_
  rw [div_lt_div_iff₀ (by positivity) (by norm_num), one_mul]
  have hpow : 2 ^ 64 ≤ 2 ^ shift := Nat.pow_le_pow_right (by decide) hshift
  exact_mod_cast (by omega : sig * 2 < 2 ^ shift)

theorem splitAtPoint_splits {sig shift : ℕ} (h0 : sig ≠ 0) (hlt : sig < 2 ^ 63) (hshift : 0 < shift) :
    Splits (sig / 2 ^ shift) (splitAtPoint sig shift).1 (splitAtPoint sig shift).2.1
      (splitAtPoint sig shift).2.2 := by
  unfold splitAtPoint
  split
  · next hfar => exact splits_of_far h0 hlt hfar
  · exact splits_shiftRight sig hshift

theorem two_mul_splitAtPoint_le (sig : ℕ) {shift : ℕ} (hshift : 0 < shift) :
    2 * (splitAtPoint sig shift).1 ≤ sig := by
  unfold splitAtPoint
  split
  · exact Nat.zero_le _
  · calc 2 * (sig >>> shift) ≤ 2 ^ shift * (sig / 2 ^ shift) := by
          rw [Nat.shiftRight_eq_div_pow]
          exact Nat.mul_le_mul_right _ (Nat.le_self_pow hshift.ne' 2)
      _ ≤ sig := Nat.mul_div_le _ _

def signedInt (sign : Bool) (n : ℕ) : ℤ := if sign then -n else n

theorem cast_signedInt (sign : Bool) (n : ℕ) :
    (signedInt sign n : ℚ) = if sign then -(n : ℚ) else n := by
  cases sign <;> simp [signedInt]

@[simp] theorem abs_signedInt (sign : Bool) (n : ℕ) : |(signedInt sign n : ℚ)| = n := by
  cases sign <;> simp [signedInt]

theorem abs_signed (sign : Bool) (v : ℚ) : |if sign then -v else v| = |v| := by
  cases sign <;> simp

namespace Splits

variable {v : ℚ} {integral rest half : ℕ}

theorem floor_eq (h : Splits v integral rest half) : ⌊v⌋ = integral :=
  Int.floor_eq_iff.2 ⟨by exact_mod_cast h.le, by exact_mod_cast h.lt⟩

theorem ceil_eq (h : Splits v integral rest half) :
    ⌈v⌉ = (integral + (rest != 0).toNat : ℕ) := by
  by_cases h0 : rest = 0
  · rw [h.rest_eq_zero.1 h0, h0]
    simp
  · have hne : v ≠ integral := mt h.rest_eq_zero.2 h0
    have hlt := lt_of_le_of_ne h.le (Ne.symm hne)
    rw [bne_iff_ne.2 h0, Int.ceil_eq_iff]
    push_cast
    exact ⟨by simpa using hlt, by simpa using h.lt.le⟩

/-- Distances are the same under either sign. -/
theorem dist_signed (sign : Bool) (v : ℚ) (n : ℕ) :
    |(if sign then -v else v) - signedInt sign n| = |v - n| := by
  cases sign with
  | false => simp [signedInt]
  | true =>
    rw [← abs_neg]
    simp [signedInt, sub_eq_add_neg, add_comm]

/-- The distance to the integral part, which lies below. -/
theorem dist_integral (h : Splits v integral rest half) (sign : Bool) :
    |(if sign then -v else v) - signedInt sign integral| = v - integral := by
  rw [dist_signed, abs_of_nonneg (sub_nonneg.2 h.le)]

/-- The distance to the next integer, which lies above. -/
theorem dist_next (h : Splits v integral rest half) (sign : Bool) :
    |(if sign then -v else v) - signedInt sign (integral + 1)| = integral + 1 - v := by
  have := h.lt
  rw [dist_signed, abs_of_nonpos, Nat.cast_add_one, neg_sub]
  push_cast
  linarith

/-- Half a unit or more is rounded up. -/
theorem isNearestAway (h : Splits v integral rest half) (sign : Bool) :
    IsNearestAway (if sign then -v else v)
      (signedInt sign (integral + (decide (half ≤ rest)).toNat)) := by
  have hincrement : half ≤ rest ↔ (integral : ℚ) + 1 / 2 ≤ v := by
    rw [le_iff_lt_or_eq, le_iff_lt_or_eq, h.half_lt, eq_comm, h.rest_eq_half, eq_comm (a := v)]
  by_cases hup : half ≤ rest
  · have hmid := hincrement.1 hup
    rw [decide_eq_true hup, Bool.toNat_true]
    refine isNearestAway_of_dist_le ?_ fun htie => ?_
    · rw [h.dist_next]
      linarith
    · rw [h.dist_next] at htie
      rw [abs_signed, abs_signedInt, abs_of_nonneg ((Nat.cast_nonneg integral).trans h.le),
        Nat.cast_add_one]
      linarith
  · have hmid := not_le.1 (mt hincrement.2 hup)
    rw [decide_eq_false hup, Bool.toNat_false, Nat.add_zero]
    refine isNearestAway_of_dist_le ?_ fun htie => ?_
    · rw [h.dist_integral]
      linarith
    · rw [h.dist_integral] at htie
      linarith

/-- More than half a unit is rounded up, and so is half a unit beside an odd integer. -/
theorem isNearestEven (h : Splits v integral rest half) (sign : Bool) :
    IsNearestEven (if sign then -v else v) (signedInt sign
      (integral + (decide (half < rest) || (rest == half && integral % 2 == 1)).toNat)) := by
  have hparity : ∀ n : ℕ, signedInt sign n % 2 = 0 ↔ n % 2 = 0 := by
    intro n
    cases sign <;> simp only [signedInt, Bool.false_eq_true, if_true, if_false] <;> omega
  rcases lt_trichotomy rest half with hrest | hrest | hrest
  · have hmid : v < integral + 1 / 2 :=
      lt_of_le_of_ne (not_lt.1 (mt h.half_lt.2 hrest.not_gt)) (mt h.rest_eq_half.2 hrest.ne)
    rw [decide_eq_false hrest.not_gt, beq_false_of_ne hrest.ne, Bool.false_and, Bool.false_or,
      Bool.toNat_false, Nat.add_zero]
    refine isNearestEven_of_dist_le ?_ fun htie => ?_
    · rw [h.dist_integral]
      linarith
    · rw [h.dist_integral] at htie
      linarith
  · have hmid := h.rest_eq_half.1 hrest
    rw [hrest, decide_eq_false (lt_irrefl half), beq_self_eq_true, Bool.true_and, Bool.false_or]
    rcases Nat.mod_two_eq_zero_or_one integral with hodd | hodd
    · rw [hodd, show ((0 : ℕ) == 1) = false from rfl, Bool.toNat_false, Nat.add_zero]
      refine isNearestEven_of_dist_le ?_ fun _ => (hparity integral).2 hodd
      rw [h.dist_integral]
      linarith
    · rw [hodd, beq_self_eq_true, Bool.toNat_true]
      refine isNearestEven_of_dist_le ?_ fun _ => (hparity (integral + 1)).2 (by omega)
      rw [h.dist_next]
      linarith
  · have hmid := h.half_lt.1 hrest
    rw [decide_eq_true hrest, Bool.true_or, Bool.toNat_true]
    refine isNearestEven_of_dist_le ?_ fun htie => ?_
    · rw [h.dist_next]
      linarith
    · rw [h.dist_next] at htie
      linarith

/-- A rule takes the integral part of a magnitude, or the next integer where it increments. -/
theorem selects (h : Splits v integral rest half) (hpos : 0 < v) (rule : RoundingRule) (sign : Bool) :
    rule.Selects (if sign then -v else v)
      (signedInt sign (integral + (rule.increments sign integral rest half).toNat)) := by
  cases rule with
  | toNearestOrAwayFromZero => exact h.isNearestAway sign
  | toNearestOrEven => exact h.isNearestEven sign
  | up | down | towardZero | awayFromZero =>
    cases sign <;>
      simp [RoundingRule.Selects, RoundingRule.increments, signedInt, h.floor_eq, h.ceil_eq,
        Int.ceil_neg, Int.floor_neg, hpos, hpos.le]

end Splits

namespace BinaryFloat

variable {fmt : FloatFormat} {mode : SubnormalMode} {x : BinaryFloat fmt}

/-! ## The float of an integer -/

/-- `y` is the integer `n`, under a sign that a zero and an infinity have too; past the greatest finite number
it is an infinity. -/
structure IsFloatOfInt (n : ℤ) (sign : Bool) (y : BinaryFloat fmt) : Prop where
  zero : n = 0 → y = .zero sign
  exact : |(n : ℚ)| ≤ (greatestFinite : BinaryFloat fmt).value → y.isFinite = true ∧ y.value = n
  overflow : (greatestFinite : BinaryFloat fmt).value < |(n : ℚ)| → y = infinity sign

/-- A zero is the float of the integer zero. -/
theorem isFloatOfInt_zero (sign : Bool) : IsFloatOfInt 0 sign (.zero sign : BinaryFloat fmt) where
  zero _ := rfl
  exact _ := ⟨isFinite_of_isZero rfl, by
    exact_mod_cast value_of_isZero (x := (.zero sign : BinaryFloat fmt)) rfl⟩
  overflow hlt := by
    rw [Int.cast_zero, abs_zero, value_greatestFinite] at hlt
    exact absurd hlt (not_lt.2 (fmt.magnitude_nonneg _))

/-- No mode flushes an integer. -/
theorem roundPack_natCast (mode : SubnormalMode) (sign : Bool) (n : ℕ) :
    (roundPack mode ⟨sign, 0, n⟩ false : BinaryFloat fmt) =
      roundPack .gradual ⟨sign, 0, n⟩ false := by
  have hlead : ¬ (⟨sign, 0, n⟩ : Unpacked).leadExp < fmt.minLead := by
    have := fmt.one_le_bias
    simp only [Unpacked.leadExp, FloatFormat.minLead]
    omega
  unfold roundPack
  simp only [hlead, and_false, if_false]

/-- An integer of no more bits than the format keeps is packed exactly, or overflows. -/
theorem roundPack_isFloatOfInt (mode : SubnormalMode) (sign : Bool) {n : ℕ}
    (hn : n < 2 * fmt.hiddenBit) :
    IsFloatOfInt (signedInt sign n) sign (roundPack mode ⟨sign, 0, n⟩ false : BinaryFloat fmt) := by
  rcases Nat.eq_zero_or_pos n with rfl | hpos
  · have h0 : signedInt sign 0 = 0 := by simp [signedInt]
    rw [roundPack_of_sig_eq_zero mode rfl, h0]
    exact isFloatOfInt_zero sign
  obtain ⟨w, hw⟩ := exists_magnitude_eq fmt hpos.ne' hn fmt.minExp_nonpos
  have hbits := hiddenBit_le fmt
  have hword := roundPack_exact (x := ⟨sign, 0, n⟩) hpos.ne' (show n < 2 ^ 128 by omega) hw
  have hsign := @roundPack_sign fmt ⟨sign, 0, n⟩ false
  rw [zpow_zero, mul_one] at hw
  rw [roundPack_natCast]
  have hinfinity := fmt.infinityWord_pos
  refine ⟨fun h0 => ?_, fun hle => ?_, fun hlt => ?_⟩
  · have habs := abs_signedInt sign n
    rw [h0, Int.cast_zero, abs_zero, eq_comm, Nat.cast_eq_zero] at habs
    exact absurd habs hpos.ne'
  · rw [abs_signedInt, value_greatestFinite, ← hw, fmt.magnitude_le_iff] at hle
    rw [min_eq_left (by omega)] at hword
    refine ⟨(isFinite_iff _).2 (by omega), ?_⟩
    rw [value, hsign, hword, hw]
    cases sign <;> simp [signedInt]
  · rw [abs_signedInt, value_greatestFinite, ← hw, fmt.magnitude_lt_iff] at hlt
    rw [min_eq_right (by omega)] at hword
    exact ext_word hsign (hword.trans (word_ofWord le_rfl).symm)

/-- A finite number that is an integer is the float of it. -/
theorem isFloatOfInt_of_isFinite {n : ℤ} (hx : x.isFinite = true) (hzero : x.isZero = false)
    (hn : x.value = n) : IsFloatOfInt n x.sign x where
  zero h0 := absurd (by rw [hn, h0, Int.cast_zero]) (value_ne_zero hzero)
  exact _ := ⟨hx, hn⟩
  overflow hlt := absurd hlt (not_lt.2 (hn ▸ abs_value_le_greatestFinite hx))

/-! ## Floats -/

theorem value_eq_signed (x : BinaryFloat fmt) :
    x.value = if x.sign then -fmt.magnitude x.word else fmt.magnitude x.word := by
  unfold value
  split <;> ring

/-- No bit lies below the point of a number whose last place does not. -/
theorem magnitude_of_integral (hexp : 0 ≤ (x.unpack .gradual).exp) :
    fmt.magnitude x.word = ((x.unpack .gradual).sig <<< (x.unpack .gradual).exp.toNat : ℕ) := by
  rw [magnitude_unpack, ← shiftLeft_mul_zpow, Int.toNat_of_nonneg hexp, sub_self, zpow_zero, mul_one]

/-- The last place below the point divides the significand. -/
theorem magnitude_of_fraction (hexp : (x.unpack .gradual).exp < 0) :
    fmt.magnitude x.word = (x.unpack .gradual).sig / 2 ^ (x.unpack .gradual).exp.natAbs := by
  rw [magnitude_unpack, div_eq_mul_inv, ← zpow_natCast, ← zpow_neg, Int.natCast_natAbs,
    abs_of_neg hexp, neg_neg]

/-- A number that is not read as a zero, apart. -/
theorem rounded_eq (rule : RoundingRule) (hx : x.isFinite = true) (hread : x.readsAsZero mode = false) :
    x.rounded mode rule =
      if 0 ≤ (x.unpack .gradual).exp then x
      else
        let (integral, rest, half) :=
          splitAtPoint (x.unpack .gradual).sig (x.unpack .gradual).exp.natAbs
        roundPack mode
          ⟨x.sign, 0, integral + (rule.increments x.sign integral rest half).toNat⟩ false := by
  have hunpack := unpack_of_not_readsAsZero hread
  have hsig : ¬ (x.unpack .gradual).sig = 0 := by
    rw [← hunpack, unpack_sig_eq_zero_iff_readsAsZero, hread]
    exact Bool.false_ne_true
  unfold rounded
  simp only [isNaN_of_isFinite hx, hx, hunpack, hsig, unpack_sign, Bool.not_true, Bool.false_eq_true,
    if_false]

/-- What is read as a zero is rounded to the zero of its sign. -/
theorem rounded_of_readsAsZero (rule : RoundingRule) (hx : x.isFinite = true)
    (hread : x.readsAsZero mode = true) : x.rounded mode rule = .zero x.sign := by
  have hsig := (unpack_sig_eq_zero_iff_readsAsZero mode x).2 hread
  unfold rounded
  simp only [isNaN_of_isFinite hx, hx, hsig, sign_unpack, Bool.not_true, Bool.false_eq_true, if_true,
    if_false]

/-- A number without bits below the point is the integer that every rule takes. -/
theorem rounded_of_integral (rule : RoundingRule) (hx : x.isFinite = true)
    (hread : x.readsAsZero mode = false) (hexp : 0 ≤ (x.unpack .gradual).exp) :
    ∃ n, rule.Selects x.value n ∧ IsFloatOfInt n x.sign (x.rounded mode rule) := by
  have hzero : x.isZero = false := (Bool.or_eq_false_iff.1 hread).1
  have hpos := magnitude_word_pos hzero
  have hmagnitude := magnitude_of_integral hexp
  have hsplits := splits_natCast ((x.unpack .gradual).sig <<< (x.unpack .gradual).exp.toNat)
  rw [← hmagnitude] at hsplits
  have hselects := hsplits.selects hpos rule x.sign
  rw [show rule.increments x.sign _ 0 1 = false by cases rule <;> rfl, Bool.toNat_false,
    Nat.add_zero, ← value_eq_signed] at hselects
  rw [rounded_eq rule hx hread, if_pos hexp]
  refine ⟨_, hselects, isFloatOfInt_of_isFinite hx hzero ?_⟩
  rw [value_eq_signed, hmagnitude, cast_signedInt]

/-- Of a number with bits below the point, the rule takes an integer that is packed as it is. -/
theorem rounded_of_fraction (rule : RoundingRule) (hx : x.isFinite = true)
    (hread : x.readsAsZero mode = false) (hexp : (x.unpack .gradual).exp < 0) :
    ∃ n, rule.Selects x.value n ∧ IsFloatOfInt n x.sign (x.rounded mode rule) := by
  have hzero : x.isZero = false := (Bool.or_eq_false_iff.1 hread).1
  have hpos := magnitude_word_pos hzero
  have hsig := unpack_sig_ne_zero hzero
  have hsplits := splitAtPoint_splits hsig ((unpack_sig_lt_two_pow x).trans (by decide))
    (Int.natAbs_pos.2 hexp.ne)
  rw [← magnitude_of_fraction hexp] at hsplits
  have hselects := hsplits.selects hpos rule x.sign
  rw [← value_eq_signed] at hselects
  rw [rounded_eq rule hx hread, if_neg hexp.not_ge]
  refine ⟨_, hselects, roundPack_isFloatOfInt mode x.sign ?_⟩
  -- the point lies within the significand, so one bit is free for the increment
  have hbits := unpack_sig_lt x
  have hintegral := two_mul_splitAtPoint_le (x.unpack .gradual).sig (Int.natAbs_pos.2 hexp.ne)
  have hincrement := Bool.toNat_le (rule.increments x.sign
    (splitAtPoint (x.unpack .gradual).sig (x.unpack .gradual).exp.natAbs).1
    (splitAtPoint (x.unpack .gradual).sig (x.unpack .gradual).exp.natAbs).2.1
    (splitAtPoint (x.unpack .gradual).sig (x.unpack .gradual).exp.natAbs).2.2)
  have htwo := fmt.two_le_hiddenBit
  omega

/-- The result is the float of the integer that the rule takes. -/
theorem exists_selects_rounded (rule : RoundingRule) (hx : x.isFinite = true)
    (hread : x.readsAsZero mode = false) :
    ∃ n, rule.Selects x.value n ∧ IsFloatOfInt n x.sign (x.rounded mode rule) := by
  rcases Int.lt_or_le (x.unpack .gradual).exp 0 with hexp | hexp
  · exact rounded_of_fraction rule hx hread hexp
  · exact rounded_of_integral rule hx hread hexp

/-- Rounding picks the integer of its rule: of a finite number that is not read as a zero, the rule takes
one integer, and the result is its float, with the sign of the number if it is a zero or an infinity.  What
is read as a zero becomes the zero of its sign. -/
theorem rounded_selects (mode : SubnormalMode) (rule : RoundingRule) (x : BinaryFloat fmt)
    (hx : x.isFinite = true) :
    (x.readsAsZero mode = true → x.rounded mode rule = .zero x.sign) ∧
      (x.readsAsZero mode = false → ∃ n, rule.Selects x.value n ∧
        (∀ m, rule.Selects x.value m → m = n) ∧ IsFloatOfInt n x.sign (x.rounded mode rule)) := by
  refine ⟨rounded_of_readsAsZero rule hx, fun hread => ?_⟩
  obtain ⟨n, hselects, hfloat⟩ := exists_selects_rounded rule hx hread
  exact ⟨n, hselects, fun m hm => hm.unique hselects, hfloat⟩

/-- With an exponent range this narrow, the integer that is taken can lie past all numbers. -/
theorem rounded_selects_overflow :
    let fmt : FloatFormat := { exponentBits := 2, fractionBits := 5 }
    let x : BinaryFloat fmt := greatestFinite
    x.isFinite = true ∧ x.readsAsZero .flushToZero = false ∧
      (∃ n, RoundingRule.up.Selects x.value n ∧ (∀ m, RoundingRule.up.Selects x.value m → m = n) ∧
        IsFloatOfInt n x.sign (x.rounded .flushToZero .up)) ∧
      x.rounded .flushToZero .up = infinity false :=
  ⟨by decide, by decide, (rounded_selects .flushToZero .up _ (by decide)).2 (by decide), by decide⟩

end BinaryFloat

end MachineNumbers
