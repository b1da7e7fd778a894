import Mathlib
import MachineNumbers.Proofs.Outcome

/-!
# Arithmetic is rounded once

`BinaryFloat.IsRounding r x` says that `x` is the float nearest to the real number `r`, with the sign of
`r` even where it underflows to a zero.  Every operation on finite numbers that has an exact result gives
the rounding of it (`Operation.eval_isRounding`), because its outcome is packed once and nothing is lost
before.  What the exact number does not tell is the sign of a result that is exactly zero, and what
becomes of operands that are no finite numbers: `SumRule`, `addProduct_rounded` and `QuotientRule` say so
for sums and differences, fused sums and quotients, and a product has the sign of its factors in any case.
-/

namespace MachineNumbers

namespace BinaryFloat

variable {fmt : FloatFormat}

/-- `x` is the real number `r` rounded: the float nearest to it, and of its sign unless `r` is zero. -/
structure IsRounding (r : ℝ) (x : BinaryFloat fmt) : Prop extends IsNearestReal r x where
  sign_iff : r ≠ 0 → (x.sign = true ↔ r < 0)

theorem isRounding_zero (sign : Bool) : IsRounding 0 (zero sign : BinaryFloat fmt) where
  toIsNearestReal := isNearestReal_zero sign
  sign_iff h := absurd rfl h

theorem IsRounding.sign_eq_false {r : ℝ} {x : BinaryFloat fmt} (h : IsRounding r x) (hr : 0 < r) :
    x.sign = false :=
  Bool.eq_false_iff.2 fun hs => ((h.sign_iff hr.ne').1 hs).not_gt hr

end BinaryFloat

open BinaryFloat

variable {fmt : FloatFormat}

/-- Gradual packing rounds what it stands for. -/
theorem Unpacked.StandsFor.isRounding {u : Unpacked} {sticky : Bool} {r : ℝ}
    (h : u.StandsFor sticky r) (hlt : u.sig < 2 ^ 128)
    (hdiscard : sticky = true → u.exp < fmt.lastExp u.leadExp) :
    IsRounding r (roundPack .gradual u sticky : BinaryFloat fmt) where
  toIsNearestReal := h.isNearestReal hlt hdiscard
  sign_iff hr := by
    rw [roundPack_sign]
    exact h.sign hr

namespace Operation

variable {op : Operation fmt} {r : ℝ}

/-- However an operation ends, an exact result is rounded. -/
theorem Outcome.isRounding {f : SubnormalMode → BinaryFloat fmt} (h : Outcome op f)
    (hr : op.exactResult? = some r) : IsRounding r (f .gradual) := by
  cases h with
  | propagated hnan =>
    -- a NaN among the operands leaves no exact result
    obtain ⟨n, hn, -⟩ := Option.map_eq_some_iff.1 hnan
    have hnone := exactResult?_eq_none (List.mem_of_find?_eq_some hn)
      (isFinite_of_isNaN (List.find?_some hn))
    exact absurd (hnone.symm.trans hr) (by simp)
  | invalid _ _ hexact => exact absurd (hexact.symm.trans hr) (by simp)
  | infinite _ _ _ hexact => exact absurd (hexact.symm.trans hr) (by simp)
  | zero sign _ _ hexact =>
    rw [hexact r hr]
    exact isRounding_zero sign
  | packed _ _ hstands hlt hbits hexact =>
    rcases hexact with hexact | ⟨hexact, -⟩
    · obtain rfl := Option.some_injective _ (hexact.symm.trans hr)
      exact hstands.isRounding hlt fun hs => Unpacked.exp_lt_lastExp (hbits hs)
    · exact absurd (hexact.symm.trans hr) (by simp)

/-- Every operation rounds its exact result, if there is one. -/
theorem eval_isRounding (op : Operation fmt) (hr : op.exactResult? = some r) :
    IsRounding r (op.eval .gradual) := by
  obtain ⟨f, houtcome, heval⟩ := exists_outcome op
  rw [heval .gradual op.plain_gradual]
  exact houtcome.isRounding hr

end Operation

/-- The kernel of sums gives no zero the sign of an operand. -/
theorem Unpacked.sign_add_of_sig_eq_zero {a b : Unpacked} (h : (a.add b).1.sig = 0) :
    (a.add b).1.sign = false := by
  have hsign : (a.add b).1.sign = ((a.add b).1.sign && (a.add b).1.sig != 0) := by
    unfold add
    simp
  rw [hsign, h]
  simp

namespace BinaryFloat

variable {x y z : BinaryFloat fmt}

/-- Numbers that cancel are packed to the positive zero. -/
theorem roundPack_add_eq_zero {a b : Unpacked} (ha0 : a.sig ≠ 0) (ha : a.sig < 2 ^ 125)
    (hb0 : b.sig ≠ 0) (hb : b.sig < 2 ^ 125) (h : a.value + b.value = 0) :
    (roundPack .gradual (a.add b).1 (a.add b).2 : BinaryFloat fmt) = zero false := by
  have hstands := (Unpacked.add_sumOf ha0 ha hb0 hb).standsFor
  rw [h, Rat.cast_zero] at hstands
  have hsig := hstands.eq_zero_iff.1 rfl
  rw [roundPack_of_sig_eq_zero _ hsig, Unpacked.sign_add_of_sig_eq_zero hsig]

/-! ## Sums and differences -/

/-- What becomes of the addends `a` and `b` of a sum that is exactly `exact` where they are finite. -/
structure SumRule (exact : ℚ) (a b sum : BinaryFloat fmt) : Prop where
  rounded : a.isFinite = true → b.isFinite = true → IsRounding exact sum
  zero : a.isFinite = true → b.isFinite = true → exact = 0 →
    sum = zero (decide (a = zero true ∧ b = zero true))
  /-- The infinities do not cancel. -/
  infinite_left : a.isInfinite = true → b.isNaN = false → (b.isInfinite = true → b.sign = a.sign) →
    sum = a
  infinite_right : b.isInfinite = true → a.isNaN = false → (a.isInfinite = true → a.sign = b.sign) →
    sum = b
  cancel : a.isInfinite = true → b.isInfinite = true → a.sign ≠ b.sign → sum = nan

theorem add_isRounding (hx : x.isFinite = true) (hy : y.isFinite = true) :
    IsRounding (x.value + y.value : ℚ) (x.add .gradual y) :=
  (Operation.add x y).eval_isRounding (Operation.exactResult?_add hx hy)

/-- A sum that is exactly zero is positive unless both addends are negative zeros. -/
theorem add_eq_zero (hx : x.isFinite = true) (hy : y.isFinite = true) (h : x.value + y.value = 0) :
    x.add .gradual y = zero (decide (x = zero true ∧ y = zero true)) := by
  have heval : x.add .gradual y = _ := Operation.add_eval hx hy .gradual (Operation.plain_gradual _)
  have hzero : x.isZero = true ↔ y.isZero = true := by
    rw [isZero_iff_value, isZero_iff_value]
    constructor <;> intro h0 <;> linarith
  rw [heval]
  simp only [unpack_sig_eq_zero, ← hzero]
  split
  · next hx0 =>
    refine congrArg zero ?_
    simp [eq_zero_iff, unpack_sign, hx0, hzero.1 hx0]
  · next hx0 =>
    have hy0 := mt hzero.2 hx0
    rw [roundPack_add_eq_zero (mt (unpack_sig_eq_zero x).1 hx0) (unpack_sig_lt_two_pow_125 x)
      (mt (unpack_sig_eq_zero y).1 hy0) (unpack_sig_lt_two_pow_125 y)
      (by rw [value_unpack, value_unpack, h])]
    refine congrArg zero ?_
    simp [eq_zero_iff, hx0]

theorem add_of_isInfinite (mode : SubnormalMode) (hx : x.isInfinite = true) (hy : y.isNaN = false) :
    x.add mode y = if y.isInfinite && y.sign != x.sign then nan else x := by
  simp [add, propagatedNaN?_pair (isNaN_of_isInfinite hx) hy, hx]

theorem add_of_finite_of_isInfinite (mode : SubnormalMode) (hx : x.isFinite = true)
    (hy : y.isInfinite = true) : x.add mode y = y := by
  simp [add, propagatedNaN?_pair (isNaN_of_isFinite hx) (isNaN_of_isInfinite hy),
    isInfinite_of_isFinite hx, hy]

theorem add_sumRule (x y : BinaryFloat fmt) : SumRule (x.value + y.value) x y (x.add .gradual y) where
  rounded := add_isRounding
  zero := add_eq_zero
  infinite_left hx hy hs := by
    rw [add_of_isInfinite _ hx hy, if_neg]
    simpa using hs
  infinite_right hy hx hs := by
    cases hxi : x.isInfinite with
    | true =>
      have heq : x = y := by
        rw [eq_infinity_of_isInfinite hxi, hs hxi, ← eq_infinity_of_isInfinite hy]
      subst heq
      simp [add_of_isInfinite _ hxi hx]
    | false => exact add_of_finite_of_isInfinite _ (isFinite_of_not hx hxi) hy
  cancel hx hy hs := by
    rw [add_of_isInfinite _ hx (isNaN_of_isInfinite hy), if_pos]
    simpa [hy] using Ne.symm hs

/-- The rule has something to say only where no addend is a NaN. -/
theorem SumRule.of_not_isNaN {exact : ℚ} {a b sum : BinaryFloat fmt}
    (h : a.isNaN = false → b.isNaN = false → SumRule exact a b sum) : SumRule exact a b sum where
  rounded ha hb := (h (isNaN_of_isFinite ha) (isNaN_of_isFinite hb)).rounded ha hb
  zero ha hb := (h (isNaN_of_isFinite ha) (isNaN_of_isFinite hb)).zero ha hb
  infinite_left ha hb := (h (isNaN_of_isInfinite ha) hb).infinite_left ha hb
  infinite_right hb ha := (h ha (isNaN_of_isInfinite hb)).infinite_right hb ha
  cancel ha hb := (h (isNaN_of_isInfinite ha) (isNaN_of_isInfinite hb)).cancel ha hb

/-- A difference is the sum with the opposite number, once no operand is a NaN. -/
theorem sub_sumRule (x y : BinaryFloat fmt) : SumRule (x.value - y.value) x (-y) (x.sub .gradual y) := by
  refine .of_not_isNaN fun hx (hy : y.isNaN = false) => ?_
  have hsub : x.sub .gradual y = x.add .gradual (-y) := by simp [sub, propagatedNaN?_pair hx hy]
  rw [hsub, sub_eq_add_neg, ← value_neg]
  exact add_sumRule x (-y)

/-- Sums and differences are rounded once: the sum of two numbers is the float nearest to the exact one, and
a difference is the sum with the opposite number.  A sum that is exactly zero is positive unless both addends
are negative zeros; infinities go first, and have no sum if they cancel. -/
theorem add_sub_rounded (x y : BinaryFloat fmt) :
    SumRule (x.value + y.value) x y (x.add .gradual y) ∧
    SumRule (x.value - y.value) x (-y) (x.sub .gradual y) :=
  ⟨add_sumRule x y, sub_sumRule x y⟩

/-- One less the least number is one: all that is borrowed for falls off again. -/
theorem add_sub_rounded_borrow :
    (one : BinaryFloat .binary64).isFinite = true ∧
    (-leastNonzero : BinaryFloat .binary64).isFinite = true ∧
    IsRounding ((one : BinaryFloat .binary64).value - (leastNonzero : BinaryFloat .binary64).value : ℚ)
      (one : BinaryFloat .binary64) := by
  have hx : (one : BinaryFloat .binary64).isFinite = true := by decide +kernel
  have hy : (-leastNonzero : BinaryFloat .binary64).isFinite = true := by decide +kernel
  have hsub : (one : BinaryFloat .binary64).sub .gradual leastNonzero = one := by decide +kernel
  have h := (add_sub_rounded (one : BinaryFloat .binary64) leastNonzero).2.rounded hx hy
  rw [hsub] at h
  exact ⟨hx, hy, h⟩

/-! ## Products -/

theorem mul_isRounding (hx : x.isFinite = true) (hy : y.isFinite = true) :
    IsRounding (x.value * y.value : ℚ) (x.mul .gradual y) :=
  (Operation.mul x y).eval_isRounding (Operation.exactResult?_mul hx hy)

/-- Products are rounded once: the product of two numbers is the float nearest to the exact one, and the signs
of the factors make its sign, also where it is a zero or overflows to an infinity. -/
theorem mul_rounded (hx : x.isFinite = true) (hy : y.isFinite = true) :
    IsRounding (x.value * y.value : ℚ) (x.mul .gradual y) ∧
    (x.mul .gradual y).sign = (x.sign != y.sign) :=
  ⟨mul_isRounding hx hy, mul_sign hx hy⟩

/-- Three times the least number times minus one half is a tie, which goes to the even one of the two least
numbers. -/
theorem mul_rounded_tie :
    (ofBits 3 : BinaryFloat .binary64).isFinite = true ∧
    (-powerOfTwo (-1) : BinaryFloat .binary64).isFinite = true ∧
    IsRounding ((ofBits 3 : BinaryFloat .binary64).value *
      (-powerOfTwo (-1) : BinaryFloat .binary64).value : ℚ)
      (-ofBits 2 : BinaryFloat .binary64) := by
  have hx : (ofBits 3 : BinaryFloat .binary64).isFinite = true := by decide +kernel
  have hy : (-powerOfTwo (-1) : BinaryFloat .binary64).isFinite = true := by decide +kernel
  have hresult : (ofBits 3 : BinaryFloat .binary64).mul .gradual (-powerOfTwo (-1)) = -ofBits 2 := by
    decide +kernel
  have h := (mul_rounded hx hy).1
  rw [hresult] at h
  exact ⟨hx, hy, h⟩

/-! ## Fused sums -/

theorem addProduct_isRounding (hx : x.isFinite = true) (hy : y.isFinite = true) (hz : z.isFinite = true) :
    IsRounding (x.value + y.value * z.value : ℚ) (x.addProduct .gradual y z) :=
  (Operation.addProduct x y z).eval_isRounding (Operation.exactResult?_addProduct hx hy hz)

/-- A fused sum that is exactly zero is positive unless both its terms are negative zeros. -/
theorem addProduct_eq_zero (hx : x.isFinite = true) (hy : y.isFinite = true) (hz : z.isFinite = true)
    (h : x.value + y.value * z.value = 0) :
    x.addProduct .gradual y z =
      zero (decide (x = zero true ∧ y.value * z.value = 0 ∧ y.sign ≠ z.sign)) := by
  have heval : x.addProduct .gradual y z = _ :=
    Operation.addProduct_eval hx hy hz .gradual (Operation.plain_gradual _)
  have hproduct : y.value * z.value = 0 ↔ y.isZero = true ∨ z.isZero = true := by
    rw [mul_eq_zero, isZero_iff_value, isZero_iff_value]
  have hzero : y.value * z.value = 0 ↔ x.isZero = true := by
    rw [isZero_iff_value]
    constructor <;> intro h0 <;> linarith
  rw [heval]
  simp only [unpack_sig_eq_zero, ← hproduct, hzero]
  split
  · next hx0 =>
    refine congrArg zero ?_
    simp only [eq_zero_iff, unpack_sign, hx0, true_and]
    cases x.sign <;> cases y.sign <;> cases z.sign <;> rfl
  · next hx0 =>
    have hp0 := mt hzero.1 hx0
    rw [hproduct, ← unpack_sig_eq_zero, ← unpack_sig_eq_zero, not_or] at hp0
    rw [roundPack_add_eq_zero (mt (unpack_sig_eq_zero x).1 hx0) (unpack_sig_lt_two_pow_125 x)
      (Nat.mul_ne_zero hp0.1 hp0.2) (mul_sig_lt y z) (by rw [value_unpack, value_mul_unpack, h])]
    refine congrArg zero ?_
    simp [hx0]

/-- Fused sums are rounded once: `x + y × z` is the float nearest to the exact number, with its sign also
where it underflows to a zero.  If it is exactly zero, it is negative only if `x` is the negative zero and
the product is a negative zero too, so that numbers which cancel give the positive zero. -/
theorem addProduct_rounded (hx : x.isFinite = true) (hy : y.isFinite = true) (hz : z.isFinite = true) :
    IsRounding (x.value + y.value * z.value : ℚ) (x.addProduct .gradual y z) ∧
    (x.value + y.value * z.value = 0 → x.addProduct .gradual y z =
      zero (decide (x = zero true ∧ y.value * z.value = 0 ∧ y.sign ≠ z.sign))) :=
  ⟨addProduct_isRounding hx hy hz, addProduct_eq_zero hx hy hz⟩

/-- A negative product far below the least number, added to the positive zero, underflows to the negative
zero. -/
theorem addProduct_rounded_underflow :
    (zero false : BinaryFloat .binary64).isFinite = true ∧
    (leastNonzero : BinaryFloat .binary64).isFinite = true ∧
    (-leastNonzero : BinaryFloat .binary64).isFinite = true ∧
    IsRounding ((zero false : BinaryFloat .binary64).value +
        (leastNonzero : BinaryFloat .binary64).value * (-leastNonzero : BinaryFloat .binary64).value : ℚ)
      (zero true : BinaryFloat .binary64) := by
  have hx : (zero false : BinaryFloat .binary64).isFinite = true := by decide +kernel
  have hy : (leastNonzero : BinaryFloat .binary64).isFinite = true := by decide +kernel
  have hz : (-leastNonzero : BinaryFloat .binary64).isFinite = true := by decide +kernel
  have hresult : (zero false : BinaryFloat .binary64).addProduct .gradual leastNonzero (-leastNonzero) =
      zero true := by decide +kernel
  have h := (addProduct_rounded hx hy hz).1
  rw [hresult] at h
  exact ⟨hx, hy, hz, h⟩

/-! ## Quotients -/

/-- What becomes of a dividend `a` and a divisor `b`. -/
structure QuotientRule (a b quotient : BinaryFloat fmt) : Prop where
  rounded : a.isFinite = true → b.isFinite = true → b.isZero = false →
    IsRounding (a.value / b.value : ℚ) quotient
  /-- The signs make that of the quotient, be it a number, a zero or an infinity. -/
  sign : a.isFinite = true → b.isFinite = true → b.isZero = false → quotient.sign = (a.sign != b.sign)
  by_zero : a.isNaN = false → a.isZero = false → b.isZero = true →
    quotient = infinity (a.sign != b.sign)
  of_infinite : a.isInfinite = true → b.isFinite = true → quotient = infinity (a.sign != b.sign)
  by_infinite : a.isFinite = true → b.isInfinite = true → quotient = zero (a.sign != b.sign)

theorem div_isRounding (hx : x.isFinite = true) (hy : y.isFinite = true) (hy0 : y.isZero = false) :
    IsRounding (x.value / y.value : ℚ) (x.div .gradual y) := by
  refine (Operation.div x y).eval_isRounding ?_
  rw [Operation.exactResult?_div hx hy, if_neg (value_ne_zero hy0)]

theorem div_of_isInfinite (mode : SubnormalMode) (hx : x.isInfinite = true) (hy : y.isFinite = true) :
    x.div mode y = infinity (x.sign != y.sign) := by
  simp [div, propagatedNaN?_pair (isNaN_of_isInfinite hx) (isNaN_of_isFinite hy), hx,
    isInfinite_of_isFinite hy]

theorem div_of_finite_of_isInfinite (mode : SubnormalMode) (hx : x.isFinite = true)
    (hy : y.isInfinite = true) : x.div mode y = zero (x.sign != y.sign) := by
  simp [div, propagatedNaN?_pair (isNaN_of_isFinite hx) (isNaN_of_isInfinite hy),
    isInfinite_of_isFinite hx, hy]

theorem div_of_isZero (hx : x.isNaN = false) (hx0 : x.isZero = false) (hy : y.isZero = true) :
    x.div .gradual y = infinity (x.sign != y.sign) := by
  have hyf := isFinite_of_isZero hy
  cases hxi : x.isInfinite with
  | true => exact div_of_isInfinite _ hxi hyf
  | false =>
    have heval : x.div .gradual y = _ :=
      Operation.div_eval (isFinite_of_not hx hxi) hyf .gradual (Operation.plain_gradual _)
    rw [heval, if_neg (by simp [unpack_sig_eq_zero, hx0]), if_pos ((unpack_sig_eq_zero y).2 hy)]

/-- Quotients are rounded once: the quotient of two numbers is the float nearest to the exact one under the
sign that theirs make.  A number divided by zero and an infinity divided by a number are infinities of that
sign, and a number divided by an infinity is a zero of that sign. -/
theorem div_rounded (x y : BinaryFloat fmt) : QuotientRule x y (x.div .gradual y) where
  rounded := div_isRounding
  sign hx hy hy0 := div_sign hx hy ((isZero_eq_false_iff y).1 hy0)
  by_zero := div_of_isZero
  of_infinite := div_of_isInfinite _
  by_infinite := div_of_finite_of_isInfinite _

/-- The least number divided by the last one before minus two leaves just more than half of the least number,
which is rounded up, not to even. -/
theorem div_rounded_past_half :
    (leastNonzero : BinaryFloat .binary64).isFinite = true ∧
    (ofBits 0xbfffffffffffffff : BinaryFloat .binary64).isFinite = true ∧
    (ofBits 0xbfffffffffffffff : BinaryFloat .binary64).isZero = false ∧
    IsRounding ((leastNonzero : BinaryFloat .binary64).value /
      (ofBits 0xbfffffffffffffff : BinaryFloat .binary64).value : ℚ)
      (-leastNonzero : BinaryFloat .binary64) := by
  have hx : (leastNonzero : BinaryFloat .binary64).isFinite = true := by decide +kernel
  have hy : (ofBits 0xbfffffffffffffff : BinaryFloat .binary64).isFinite = true := by decide +kernel
  have hy0 : (ofBits 0xbfffffffffffffff : BinaryFloat .binary64).isZero = false := by decide +kernel
  have hresult : (leastNonzero : BinaryFloat .binary64).div .gradual (ofBits 0xbfffffffffffffff) =
      -leastNonzero := by decide +kernel
  have h := (div_rounded (leastNonzero : BinaryFloat .binary64) (ofBits 0xbfffffffffffffff)).rounded
    hx hy hy0
  rw [hresult] at h
  exact ⟨hx, hy, hy0, h⟩

end BinaryFloat

end MachineNumbers
