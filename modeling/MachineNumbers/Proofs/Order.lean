import Mathlib
import MachineNumbers.BinaryFloat.Order
import MachineNumbers.Proofs.Kinds

/-!
# The orders agree

`BinaryFloat.extended` is the number of a float, infinities at the ends of the line.  All comparisons come
down to `BinaryFloat.signedWord`, the word under its sign: numbers are ordered as their signed words
(`extended_lt_iff`), that is what `compare?` looks at (`compare?_eq_signedWord`), and `rank` differs from
it only in that it puts a negative word one place lower (`rank_lt_iff`).  So the total order extends the one
by value (`orders_agree`), and the lesser and the greater of two numbers are those of the total order.
Rounding keeps the order of numbers (`IsNearestReal.extended_le`).
-/

namespace MachineNumbers.BinaryFloat

variable {fmt : FloatFormat} {x y : BinaryFloat fmt}

/-- The number of a float that is not a NaN, on the line with both of its ends. -/
noncomputable def extended (x : BinaryFloat fmt) : EReal :=
  if x.isInfinite then if x.sign then ⊥ else ⊤ else ((x.value : ℝ) : EReal)

/-- The word under its sign; both zeros have the same. -/
def signedWord (x : BinaryFloat fmt) : ℤ := if x.sign then -x.word else x.word

/-- The place of an encoding among unsigned numbers: all bits of a negative one are flipped, and of a
positive one the sign bit is set. -/
def orderKey (x : BinaryFloat fmt) : ℕ :=
  if x.toBits &&& fmt.signWeight ≠ 0 then x.toBits ^^^ (2 * fmt.signWeight - 1)
  else x.toBits ||| fmt.signWeight

/-- An order of all encodings that extends the order of numbers: it tells any two encodings apart, and
puts the zeros and the NaNs in the order of their signs. -/
structure ExtendsNumbers (order : BinaryFloat fmt → BinaryFloat fmt → Ordering) : Prop where
  transCmp : Std.TransCmp order
  eq_iff : ∀ x y, order x y = .eq ↔ x.toBits = y.toBits
  refines : ∀ x y o, x.compare? y = some o → o ≠ .eq → order x y = o
  zeros : order (zero true) (zero false) = .lt
  negative_nan : ∀ x y, x.isNaN = true → x.sign = true → y.isNaN = false → order x y = .lt
  positive_nan : ∀ x y, x.isNaN = true → x.sign = false → y.isNaN = false → order x y = .gt

/-! ## Signed words -/

theorem abs_signedWord (x : BinaryFloat fmt) : |x.signedWord| = x.word := by
  unfold signedWord
  split
  · rw [abs_neg, Nat.abs_cast]
  · rw [Nat.abs_cast]

theorem abs_signedWord_le (h : x.isNaN = false) : |x.signedWord| ≤ fmt.infinityWord := by
  rw [abs_signedWord]
  exact_mod_cast (isNaN_eq_false_iff x).1 h

theorem abs_signedWord_lt (h : x.isFinite = true) : |x.signedWord| < fmt.infinityWord := by
  rw [abs_signedWord]
  exact_mod_cast (isFinite_iff x).1 h

theorem signedWord_of_isInfinite (h : x.isInfinite = true) :
    x.signedWord = if x.sign then -(fmt.infinityWord : ℤ) else fmt.infinityWord := by
  unfold signedWord
  rw [(isInfinite_iff_word x).1 h]

theorem signedWord_eq_zero_iff (x : BinaryFloat fmt) : x.signedWord = 0 ↔ x.isZero = true := by
  rw [← abs_eq_zero, abs_signedWord, Nat.cast_eq_zero, isZero, beq_iff_eq]

theorem signedWord_lt_zero_iff (h : x.isZero = false) : x.signedWord < 0 ↔ x.sign = true := by
  have hpos := Nat.pos_of_ne_zero ((isZero_eq_false_iff x).1 h)
  unfold signedWord
  cases x.sign with
  | false => simp
  | true => simpa using hpos

/-- Only the zeros share a signed word. -/
theorem eq_of_signedWord_eq (h : x.signedWord = y.signedWord) (hx : x.isZero = false) : x = y := by
  have hy : y.isZero = false := by
    rw [← Bool.not_eq_true, ← signedWord_eq_zero_iff] at hx ⊢
    rwa [← h]
  have hsign : x.sign = true ↔ y.sign = true := by
    rw [← signedWord_lt_zero_iff hx, ← signedWord_lt_zero_iff hy, h]
  have hword : (x.word : ℤ) = y.word := by rw [← abs_signedWord, ← abs_signedWord, h]
  exact ext_word (Bool.eq_iff_iff.2 hsign) (by exact_mod_cast hword)

/-! ## Numbers are ordered as signed words -/

/-- Values are ordered as the signed words. -/
theorem value_lt_iff : x.value < y.value ↔ x.signedWord < y.signedWord := by
  have hx := fmt.magnitude_nonneg x.word
  have hy := fmt.magnitude_nonneg y.word
  unfold value signedWord
  cases x.sign with
  | false =>
    cases y.sign with
    | false => simp [fmt.magnitude_lt_iff]
    | true =>
      simp only [Bool.false_eq_true, if_false, if_true, one_mul, neg_one_mul]
      exact iff_of_false (by linarith) (by omega)
  | true =>
    cases y.sign with
    | false =>
      simp only [Bool.false_eq_true, if_false, if_true, one_mul, neg_one_mul]
      rcases Nat.eq_zero_or_pos x.word with h0 | hpos
      · rw [h0, fmt.magnitude_zero, neg_zero, fmt.magnitude_pos_iff]
        omega
      · have := fmt.magnitude_pos_iff.2 hpos
        exact iff_of_true (by linarith) (by omega)
    | true => simp [fmt.magnitude_lt_iff]

/-- So are the extended reals that numbers and infinities stand for. -/
theorem extended_lt_iff (hx : x.isNaN = false) (hy : y.isNaN = false) :
    x.extended < y.extended ↔ x.signedWord < y.signedWord := by
  have hxle := abs_le.1 (abs_signedWord_le hx)
  have hyle := abs_le.1 (abs_signedWord_le hy)
  have hpos := fmt.infinityWord_pos
  unfold extended
  cases hxi : x.isInfinite with
  | false =>
    have hxlt := abs_lt.1 (abs_signedWord_lt (isFinite_of_not hx hxi))
    cases hyi : y.isInfinite with
    | false => simp [value_lt_iff]
    | true =>
      rw [signedWord_of_isInfinite hyi]
      cases y.sign
      · simpa using hxlt.2
      · simpa using hxlt.1.le
  | true =>
    rw [signedWord_of_isInfinite hxi]
    cases hyi : y.isInfinite with
    | false =>
      have hylt := abs_lt.1 (abs_signedWord_lt (isFinite_of_not hy hyi))
      cases x.sign
      · simpa using hylt.2.le
      · simpa using hylt.1
    | true =>
      rw [signedWord_of_isInfinite hyi]
      have hlt : -(fmt.infinityWord : ℤ) < fmt.infinityWord := by omega
      cases x.sign <;> cases y.sign <;> simp [hlt]

theorem extended_of_isFinite (h : x.isFinite = true) : x.extended = ((x.value : ℝ) : EReal) := by
  rw [extended, isInfinite_of_isFinite h, if_neg Bool.false_ne_true]

theorem extended_of_isInfinite (h : x.isInfinite = true) : x.extended = if x.sign then ⊥ else ⊤ := by
  rw [extended, if_pos h]

/-- Rounding keeps the order: a lesser number is not rounded to a greater float. -/
theorem IsNearestReal.extended_le {v w : ℝ} (hx : IsNearestReal v x) (hy : IsNearestReal w y)
    (hvw : v < w) : x.extended ≤ y.extended := by
  by_contra hlt
  rw [not_le] at hlt
  cases hxi : x.isInfinite with
  | true =>
    have hbound := hx.isInfinite_iff.1 hxi
    have hv := not_lt.1 (mt (hx.sign_of_isInfinite hxi).2 fun hs => by
      simp [extended_of_isInfinite hxi, hs] at hlt)
    have hw := hv.trans_lt hvw
    have hyi := hy.isInfinite_iff.2 (by
      rw [abs_of_nonneg hv] at hbound
      rw [abs_of_pos hw]
      exact hbound.trans hvw.le)
    have hys := mt (hy.sign_of_isInfinite hyi).1 hw.not_gt
    simp [extended_of_isInfinite hyi, hys] at hlt
  | false =>
  have hxf := isFinite_of_not hx.not_isNaN hxi
  cases hyi : y.isInfinite with
  | true =>
    have hbound := hy.isInfinite_iff.1 hyi
    have hw := (hy.sign_of_isInfinite hyi).1 (by
      by_contra hs
      simp [extended_of_isInfinite hyi, hs] at hlt)
    have hxi' := hx.isInfinite_iff.2 (by
      rw [abs_of_neg hw] at hbound
      rw [abs_of_neg (hvw.trans hw)]
      linarith)
    exact absurd (hxi.symm.trans hxi') Bool.false_ne_true
  | false =>
    -- the number half way between the floats lies above the one and below the other
    have hyf := isFinite_of_not hy.not_isNaN hyi
    rw [extended_of_isFinite hxf, extended_of_isFinite hyf, EReal.coe_lt_coe_iff] at hlt
    have hnearx := sq_le_sq.2 (hx.nearest y hxf hyf)
    have hneary := sq_le_sq.2 (hy.nearest x hyf hxf)
    have hv : (x.value : ℝ) + y.value ≤ 2 * v := by nlinarith
    have hw : 2 * w ≤ (x.value : ℝ) + y.value := by nlinarith
    linarith

theorem compare_congr {α β : Type*} [LinearOrder α] [LinearOrder β] {a b : α} {c d : β}
    (hlt : a < b ↔ c < d) (hgt : b < a ↔ d < c) : compare a b = compare c d := by
  rcases lt_trichotomy c d with h | h | h
  · rw [compare_lt_iff_lt.2 h, compare_lt_iff_lt.2 (hlt.2 h)]
  · have hle : a ≤ b := not_lt.1 fun hba => (hgt.1 hba).ne h.symm
    have hge : b ≤ a := not_lt.1 fun hab => (hlt.1 hab).ne h
    have hab : a = b := le_antisymm hle hge
    rw [compare_eq_iff_eq.2 h, compare_eq_iff_eq.2 hab]
  · rw [compare_gt_iff_gt.2 h, compare_gt_iff_gt.2 (hgt.2 h)]

/-- The comparison by cases is one of integers. -/
theorem compare?_eq_signedWord (x y : BinaryFloat fmt) :
    x.compare? y = if x.isNaN || y.isNaN then none else some (compare x.signedWord y.signedWord) := by
  unfold compare?
  split
  · rfl
  split
  · next hzero =>
    rw [Bool.and_eq_true] at hzero
    rw [(signedWord_eq_zero_iff x).2 hzero.1, (signedWord_eq_zero_iff y).2 hzero.2]
    rfl
  · next hzero =>
    have hne : x.word ≠ 0 ∨ y.word ≠ 0 := by
      simpa [isZero, or_iff_not_imp_left] using hzero
    unfold signedWord
    congr 1
    cases x.sign with
    | false =>
      cases y.sign with
      | false => exact compare_congr (by simp) (by simp)
      | true =>
        refine (compare_gt_iff_gt.2 ?_).symm
        simp only [Bool.false_eq_true, if_false, if_true]
        omega
    | true =>
      cases y.sign with
      | false =>
        refine (compare_lt_iff_lt.2 ?_).symm
        simp only [Bool.false_eq_true, if_false, if_true]
        omega
      | true => exact compare_congr (by simp) (by simp)

/-- `compare?` compares the numbers. -/
theorem compare?_eq (x y : BinaryFloat fmt) :
    x.compare? y = if x.isNaN || y.isNaN then none else some (compare x.extended y.extended) := by
  rw [compare?_eq_signedWord]
  split
  · rfl
  · next h =>
    obtain ⟨hx, hy⟩ := Bool.or_eq_false_iff.1 (Bool.eq_false_iff.2 h)
    rw [compare_congr (extended_lt_iff hx hy) (extended_lt_iff hy hx)]

theorem compare?_eq_some_iff (hx : x.isNaN = false) (hy : y.isNaN = false) (o : Ordering) :
    x.compare? y = some o ↔ compare x.signedWord y.signedWord = o := by
  simp [compare?_eq_signedWord, hx, hy]

theorem isAtMost_iff (hx : x.isNaN = false) (hy : y.isNaN = false) :
    x.isAtMost y = true ↔ x.signedWord ≤ y.signedWord := by
  unfold isAtMost
  rw [Bool.or_eq_true, beq_iff_eq, beq_iff_eq, compare?_eq_some_iff hx hy, compare?_eq_some_iff hx hy,
    compare_lt_iff_lt, compare_eq_iff_eq, le_iff_lt_or_eq]

theorem equals_iff (x y : BinaryFloat fmt) : x.equals y = true ↔ x.compare? y = some .eq := by
  unfold equals
  cases hx : x.isNaN with
  | true => simp [compare?_eq_signedWord, hx]
  | false =>
  cases hy : y.isNaN with
  | true => simp [compare?_eq_signedWord, hy]
  | false =>
    rw [compare?_eq_some_iff hx hy, compare_eq_iff_eq]
    simp only [Bool.not_false, Bool.true_and, Bool.or_eq_true, beq_iff_eq, Bool.and_eq_true]
    constructor
    · rintro (rfl | ⟨hx0, hy0⟩)
      · rfl
      · rw [(signedWord_eq_zero_iff x).2 hx0, (signedWord_eq_zero_iff y).2 hy0]
    · intro h
      cases hx0 : x.isZero with
      | false => exact Or.inl (eq_of_signedWord_eq h hx0)
      | true =>
        refine Or.inr ⟨rfl, (signedWord_eq_zero_iff y).1 ?_⟩
        rw [← h, (signedWord_eq_zero_iff x).2 hx0]

/-! ## The total order -/

theorem rank_lt_zero_iff (x : BinaryFloat fmt) : x.rank < 0 ↔ x.sign = true := by
  unfold rank
  cases x.sign with
  | false => simp
  | true => exact iff_of_true (by rw [if_pos rfl]; omega) rfl

/-- The total order tells any two encodings apart. -/
theorem rank_injective : Function.Injective (rank : BinaryFloat fmt → ℤ) := by
  intro x y h
  have hsign : x.sign = y.sign := by
    rw [Bool.eq_iff_iff, ← rank_lt_zero_iff, ← rank_lt_zero_iff, h]
  refine ext_word hsign ?_
  unfold rank at h
  rw [hsign] at h
  split at h <;> omega

theorem toBits_injective : Function.Injective (toBits : BinaryFloat fmt → ℕ) :=
  Function.LeftInverse.injective ofBits_toBits

theorem totalCompare_eq_eq_iff (x y : BinaryFloat fmt) : x.totalCompare y = .eq ↔ x.toBits = y.toBits := by
  rw [totalCompare, compare_eq_iff_eq, rank_injective.eq_iff, toBits_injective.eq_iff]

theorem transCmp_totalCompare : Std.TransCmp (totalCompare : BinaryFloat fmt → _) :=
  inferInstanceAs (Std.TransCmp (compareOn rank))

/-- Flipping all bits of a number of `k` bits. -/
theorem xor_two_pow_sub_one {n k : ℕ} (h : n < 2 ^ k) : n ^^^ (2 ^ k - 1) = 2 ^ k - 1 - n := by
  refine Nat.eq_of_testBit_eq fun i => ?_
  rw [Nat.testBit_xor, Nat.testBit_two_pow_sub_one, Nat.sub_sub, Nat.add_comm 1,
    Nat.testBit_two_pow_sub_succ h]
  by_cases hi : i < k
  · simp [hi]
  · have hbit : n.testBit i = false :=
      Nat.testBit_lt_two_pow (h.trans_le (Nat.pow_le_pow_right (by decide) (not_lt.1 hi)))
    simp [hi, hbit]

theorem signWeight_and (x : BinaryFloat fmt) :
    x.toBits &&& fmt.signWeight = if x.sign then fmt.signWeight else 0 := by
  have hlow : x.word &&& fmt.signWeight = 0 := by
    have h := Nat.and_two_pow x.word (fmt.exponentBits + fmt.fractionBits)
    rwa [Nat.testBit_lt_two_pow x.word_lt, Bool.toNat_false, Nat.zero_mul] at h
  unfold toBits
  cases x.sign
  · simpa using hlow
  · simp only [if_true, fmt.signWeight_add_eq_or x.word_lt, Nat.and_or_distrib_right, hlow,
      Nat.and_self, Nat.or_zero]

/-- The key is the rank, moved up to the unsigned numbers. -/
theorem orderKey_eq (x : BinaryFloat fmt) : (x.orderKey : ℤ) = x.rank + fmt.signWeight := by
  have hword := x.word_lt
  have hpos := fmt.signWeight_pos
  unfold orderKey
  rw [signWeight_and]
  cases hs : x.sign with
  | false =>
    have hbits : x.toBits = x.word := by simp [toBits, hs]
    rw [if_neg (by simp), hbits, Nat.or_comm, ← fmt.signWeight_add_eq_or hword]
    simp [rank, hs]
    omega
  | true =>
    have hbits : x.toBits = fmt.signWeight + x.word := by simp [toBits, hs]
    have hlt := x.toBits_lt
    have hwidth : 2 * fmt.signWeight = 2 ^ fmt.width := fmt.two_mul_signWeight
    rw [if_pos (by simpa using hpos.ne'), hwidth, xor_two_pow_sub_one hlt, ← hwidth, hbits]
    simp only [rank, hs, if_true]
    omega

/-- The comparison of words by sign and bits is one of integers. -/
theorem totalCompare_eq_compare_orderKey (x y : BinaryFloat fmt) :
    x.totalCompare y = compare x.orderKey y.orderKey := by
  have hx := orderKey_eq x
  have hy := orderKey_eq y
  exact compare_congr (by omega) (by omega)

theorem rank_lt_iff (h : x.signedWord ≠ y.signedWord) :
    x.rank < y.rank ↔ x.signedWord < y.signedWord := by
  unfold rank signedWord at *
  split at h <;> split at h <;> simp only [*, if_true, if_false, Bool.false_eq_true] <;> omega

/-- Where the partial comparison decides, the total one agrees. -/
theorem totalCompare_of_compare? {o : Ordering} (h : x.compare? y = some o) (ho : o ≠ .eq) :
    x.totalCompare y = o := by
  rw [compare?_eq_signedWord] at h
  split at h
  · cases h
  obtain rfl := Option.some_injective _ h
  rw [ne_eq, compare_eq_iff_eq] at ho
  exact compare_congr (rank_lt_iff ho) (rank_lt_iff (Ne.symm ho))

theorem totalCompare_negative_nan (hx : x.isNaN = true) (hs : x.sign = true) (hy : y.isNaN = false) :
    x.totalCompare y = .lt := by
  have hx' : fmt.infinityWord < x.word := by simpa [isNaN] using hx
  have hy' := (isNaN_eq_false_iff y).1 hy
  refine compare_lt_iff_lt.2 ?_
  simp only [rank, hs, if_true]
  split <;> omega

theorem totalCompare_positive_nan (hx : x.isNaN = true) (hs : x.sign = false) (hy : y.isNaN = false) :
    x.totalCompare y = .gt := by
  have hx' : fmt.infinityWord < x.word := by simpa [isNaN] using hx
  have hy' := (isNaN_eq_false_iff y).1 hy
  refine compare_gt_iff_gt.2 ?_
  simp only [rank, hs, Bool.false_eq_true, if_false]
  split <;> omega

theorem totalCompare_extendsNumbers : ExtendsNumbers (totalCompare : BinaryFloat fmt → _) where
  transCmp := transCmp_totalCompare
  eq_iff := totalCompare_eq_eq_iff
  refines _ _ _ := totalCompare_of_compare?
  zeros := rfl
  negative_nan _ _ := totalCompare_negative_nan
  positive_nan _ _ := totalCompare_positive_nan

/-! ## The lesser and the greater number -/

/-- Apart from the zeros, the total order is the one by value. -/
theorem isAtMost_iff_rank_le (hx : x.isNaN = false) (hy : y.isNaN = false)
    (hzero : (x.isZero && y.isZero) = false) : x.isAtMost y = true ↔ x.rank ≤ y.rank := by
  have hword : x.word ≠ 0 ∨ y.word ≠ 0 := by
    rw [Bool.and_eq_false_iff, isZero_eq_false_iff, isZero_eq_false_iff] at hzero
    exact hzero
  rw [isAtMost_iff hx hy]
  unfold signedWord rank
  split <;> split <;> omega

theorem exists_eq_zero (h : x.isZero = true) : ∃ sign, x = zero sign :=
  ⟨x.sign, (eq_zero_iff _).2 ⟨h, rfl⟩⟩

/-- The lesser number is the lesser of the total order, of two zeros too. -/
theorem minimum_eq (hx : x.isNaN = false) (hy : y.isNaN = false) :
    x.minimum y = if x.totalCompare y = .gt then y else x := by
  simp only [minimum, propagatedNaN?_pair hx hy, totalCompare, compare_gt_iff_gt]
  cases hzero : x.isZero && y.isZero with
  | true =>
    obtain ⟨⟨xSign, rfl⟩, ySign, rfl⟩ := (Bool.and_eq_true_iff.1 hzero).imp exists_eq_zero exists_eq_zero
    cases xSign <;> cases ySign <;> rfl
  | false =>
    simp only [Bool.false_eq_true, if_false, isAtMost_iff_rank_le hx hy hzero, ← not_lt, ite_not]

/-- The greater number is the greater of the total order, of two zeros too. -/
theorem maximum_eq (hx : x.isNaN = false) (hy : y.isNaN = false) :
    x.maximum y = if x.totalCompare y = .lt then y else x := by
  simp only [maximum, propagatedNaN?_pair hx hy, totalCompare, compare_lt_iff_lt]
  cases hzero : x.isZero && y.isZero with
  | true =>
    obtain ⟨⟨xSign, rfl⟩, ySign, rfl⟩ := (Bool.and_eq_true_iff.1 hzero).imp exists_eq_zero exists_eq_zero
    cases xSign <;> cases ySign <;> rfl
  | false =>
    rw [Bool.and_comm] at hzero
    simp only [Bool.false_eq_true, if_false, isAtMost_iff_rank_le hy hx hzero, ← not_lt, ite_not]

/-- The orders agree: numbers are compared as the numbers they are, infinities and zeros included, and are
equal if they compare so; the total order of all encodings, that of their keys, extends this one; and the
lesser and the greater of two numbers are those of the total order. -/
theorem orders_agree (fmt : FloatFormat) :
    (∀ x y : BinaryFloat fmt,
      (x.compare? y = if x.isNaN || y.isNaN then none else some (compare x.extended y.extended)) ∧
      (x.equals y = true ↔ x.compare? y = some .eq) ∧
      x.totalCompare y = compare x.orderKey y.orderKey) ∧
    ExtendsNumbers (totalCompare : BinaryFloat fmt → _) ∧
    ∀ x y : BinaryFloat fmt, x.isNaN = false → y.isNaN = false →
      x.minimum y = (if x.totalCompare y = .gt then y else x) ∧
      x.maximum y = (if x.totalCompare y = .lt then y else x) :=
  ⟨fun x y => ⟨compare?_eq x y, equals_iff x y, totalCompare_eq_compare_orderKey x y⟩,
    totalCompare_extendsNumbers, fun _ _ hx hy => ⟨minimum_eq hx hy, maximum_eq hx hy⟩⟩

/-- The zeros are equal by value, but the lesser of them is the negative one. -/
theorem orders_agree_zeros :
    (zero false : BinaryFloat .binary64).isNaN = false ∧ (zero true : BinaryFloat .binary64).isNaN = false ∧
    (zero false : BinaryFloat .binary64).compare? (zero true) = some .eq ∧
    (zero false : BinaryFloat .binary64).minimum (zero true) = zero true ∧
    (zero false : BinaryFloat .binary64).maximum (zero true) = zero false := by
  have h := (orders_agree .binary64).2.2 (zero false) (zero true) (by decide +kernel) (by decide +kernel)
  exact ⟨by decide +kernel, by decide +kernel, by decide +kernel, h.1.trans (if_pos (by decide +kernel)),
    h.2.trans (if_neg (by decide +kernel))⟩

end MachineNumbers.BinaryFloat
