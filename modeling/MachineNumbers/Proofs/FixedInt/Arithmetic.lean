import Mathlib
import MachineNumbers.FixedInt.Arithmetic
import MachineNumbers.Proofs.FixedInt.Residue

/-!
# Arithmetic under a policy agrees with the integers

Wide words are long enough: none of the sums, differences, quotients and remainders computed in them
wraps, and a product that would is not computed in one (`WideExact`, `wideExact`).  So an operation
wraps the exact result and tells whether it overflowed (`overflowing_of_exact`), and the three policies
differ only in what they make of that (`arith_agrees`).
-/

namespace MachineNumbers

namespace ArithOp

/-- The exact result; division and remainder by zero have none. -/
def exact (op : ArithOp) (a b : ℤ) : Except Overflow ℤ :=
  match op with
  | add => .ok (a + b)
  | sub => .ok (a - b)
  | mul => .ok (a * b)
  | div => if b = 0 then .error .divisionByZero else .ok (a.tdiv b)
  | rem => if b = 0 then .error .remainderByZero else .ok (a.tmod b)

/-- The exact result `e` is no value of the type, or it is a remainder whose quotient is none. -/
def Overflows (op : ArithOp) (ty : IntType) (a b e : ℤ) : Prop :=
  ¬ty.Fits e ∨ op = rem ∧ ty.signed = true ∧ a = ty.minValue ∧ b = -1

instance (op : ArithOp) (ty : IntType) (a b e : ℤ) : Decidable (op.Overflows ty a b e) := by
  unfold Overflows
  infer_instance

end ArithOp

namespace FixedInt

variable {ty : IntType}

/-! ## Wide words -/

theorem toInt_wide (a : FixedInt ty) : a.wide.toInt = a.value := by
  have hwidth := ty.width_le
  unfold wide value
  split
  · exact BitVec.toInt_signExtend_of_le (by omega)
  · have hlt : a.bits.toBitVec.toNat < 2 ^ ty.width := a.bits.toBitVec.isLt
    have hpow : 2 ^ ty.width ≤ 2 ^ 64 := Nat.pow_le_pow_right (by norm_num) hwidth
    have hlow : a.bits.toBitVec.toNat % 2 ^ 128 = a.bits.toBitVec.toNat :=
      Nat.mod_eq_of_lt (by omega)
    rw [BitVec.toInt_eq_toNat_of_lt, BitVec.toNat_setWidth, hlow]
    · rfl
    · rw [BitVec.toNat_setWidth, hlow]
      omega

/-- Only the least wide word has an opposite and a quotient that are none. -/
theorem wide_ne_intMin (a : FixedInt ty) : a.wide ≠ BitVec.intMin 128 := by
  intro h
  have ha := a.fits_value.bounds
  have hmin := congrArg BitVec.toInt h
  rw [toInt_wide, BitVec.toInt_intMin] at hmin
  norm_num at hmin
  omega

/-- What is computed in wide words is exact. -/
structure WideExact (a b : FixedInt ty) : Prop where
  left : a.wide.toInt = a.value
  right : b.wide.toInt = b.value
  sum : (a.wide + b.wide).toInt = a.value + b.value
  difference : (a.wide - b.wide).toInt = a.value - b.value
  product : ∀ product, wideProduct? a.wide b.wide = some product → product.toInt = a.value * b.value
  /-- A product is left to the patterns only where it has no wide word. -/
  longProduct : wideProduct? a.wide b.wide = none ↔ 2 ^ 127 ≤ a.value * b.value
  quotient : (a.wide.sdiv b.wide).toInt = a.value.tdiv b.value
  remainder : (a.wide.srem b.wide).toInt = a.value.tmod b.value

theorem neg_two_pow_127_lt_mul (a b : FixedInt ty) : -2 ^ 127 < a.value * b.value := by
  have ha := a.fits_value.bounds
  have hb := b.fits_value.bounds
  rcases le_or_gt 0 a.value with h | h
  · nlinarith
  · nlinarith

theorem smulOverflow_iff (a b : FixedInt ty) :
    a.wide.smulOverflow b.wide = true ↔ 2 ^ 127 ≤ a.value * b.value := by
  have := a.neg_two_pow_127_lt_mul b
  unfold BitVec.smulOverflow
  rw [toInt_wide, toInt_wide, Bool.or_eq_true, decide_eq_true_eq, decide_eq_true_eq]
  omega

theorem wideExact (a b : FixedInt ty) : WideExact a b := by
  have ha := a.fits_value.bounds
  have hb := b.fits_value.bounds
  have hsum : ¬a.wide.saddOverflow b.wide = true := by
    unfold BitVec.saddOverflow
    rw [toInt_wide, toInt_wide, Bool.or_eq_true, decide_eq_true_eq, decide_eq_true_eq]
    omega
  have hdifference : ¬a.wide.ssubOverflow b.wide = true := by
    unfold BitVec.ssubOverflow
    rw [toInt_wide, toInt_wide, Bool.or_eq_true, decide_eq_true_eq, decide_eq_true_eq]
    omega
  constructor
  · exact toInt_wide a
  · exact toInt_wide b
  · rw [BitVec.toInt_add_of_not_saddOverflow hsum, toInt_wide, toInt_wide]
  · rw [BitVec.toInt_sub_of_not_ssubOverflow hdifference, toInt_wide, toInt_wide]
  · intro product h
    unfold wideProduct? at h
    split at h
    · cases h
    · next hno =>
      obtain rfl := Option.some.inj h
      rw [BitVec.toInt_mul_of_not_smulOverflow hno, toInt_wide, toInt_wide]
  · rw [← smulOverflow_iff]
    unfold wideProduct?
    split
    · next hyes => simp [hyes]
    · next hno => simp [hno]
  · rw [BitVec.toInt_sdiv_of_ne_or_ne _ _ (Or.inl a.wide_ne_intMin), toInt_wide, toInt_wide]
  · rw [BitVec.toInt_srem, toInt_wide, toInt_wide]

/-! ## One operation -/

theorem reduced_eq {v : BitVec 128} {e : ℤ} (h : v.toInt = e) :
    (reduced v : FixedInt ty × Bool) = (wrap e, decide (¬ty.Fits e)) := by
  unfold reduced
  rw [h, decide_not]

theorem patternProduct_eq (a b : FixedInt ty) : patternProduct a b = wrap (a.value * b.value) := by
  unfold patternProduct
  rw [ofNat_eq_wrap]
  apply wrap_congr
  push_cast
  exact (a.value_modEq_toNat.mul b.value_modEq_toNat).symm

theorem overflowingMul_eq (a b : FixedInt ty) :
    overflowingMul a b = (wrap (a.value * b.value), decide (¬ty.Fits (a.value * b.value))) := by
  have hwide := wideExact a b
  unfold overflowingMul
  cases hproduct : wideProduct? a.wide b.wide with
  | some product => exact reduced_eq (hwide.product product hproduct)
  | none =>
    have hlong := hwide.longProduct.1 hproduct
    have hfits : ¬ty.Fits (a.value * b.value) := by
      intro h
      have := h.bounds
      omega
    rw [patternProduct_eq, decide_eq_true hfits]

/-- Without an exact result the operation fails with its cause. -/
theorem overflowing_of_error {op : ArithOp} {a b : FixedInt ty} {cause : Overflow}
    (h : op.exact a.value b.value = .error cause) : overflowing op a b = .error cause := by
  cases op with
  | add => cases h
  | sub => cases h
  | mul => cases h
  | div =>
    by_cases hzero : b.value = 0
    · rw [ArithOp.exact, if_pos hzero] at h
      rw [overflowing, if_pos hzero, Except.error.inj h]
    · rw [ArithOp.exact, if_neg hzero] at h
      cases h
  | rem =>
    by_cases hzero : b.value = 0
    · rw [ArithOp.exact, if_pos hzero] at h
      rw [overflowing, if_pos hzero, Except.error.inj h]
    · rw [ArithOp.exact, if_neg hzero] at h
      cases h

/-- An operation wraps the exact result and tells whether it overflowed. -/
theorem overflowing_of_exact {op : ArithOp} {a b : FixedInt ty} {e : ℤ}
    (h : op.exact a.value b.value = .ok e) :
    overflowing op a b = .ok (wrap e, decide (op.Overflows ty a.value b.value e)) := by
  have hwide := wideExact a b
  -- only a remainder overflows though it fits
  have hflag : ¬(op = .rem ∧ ty.signed = true ∧ a.value = ty.minValue ∧ b.value = -1) →
      decide (op.Overflows ty a.value b.value e) = decide (¬ty.Fits e) := by
    intro hrem
    unfold ArithOp.Overflows
    simp [hrem]
  cases op with
  | add =>
    obtain rfl := Except.ok.inj h
    rw [overflowing, overflowingAdd, reduced_eq hwide.sum, hflag (by simp)]
  | sub =>
    obtain rfl := Except.ok.inj h
    rw [overflowing, overflowingSub, reduced_eq hwide.difference, hflag (by simp)]
  | mul =>
    obtain rfl := Except.ok.inj h
    rw [overflowing, overflowingMul_eq, hflag (by simp)]
  | div =>
    by_cases hzero : b.value = 0
    · rw [ArithOp.exact, if_pos hzero] at h
      cases h
    · rw [ArithOp.exact, if_neg hzero] at h
      obtain rfl := Except.ok.inj h
      rw [overflowing, if_neg hzero, reduced_eq hwide.quotient, hflag (by simp)]
  | rem =>
    by_cases hzero : b.value = 0
    · rw [ArithOp.exact, if_pos hzero] at h
      cases h
    · rw [ArithOp.exact, if_neg hzero] at h
      obtain rfl := Except.ok.inj h
      rw [overflowing, if_neg hzero]
      by_cases hmin : ty.signed = true ∧ a.value = ty.minValue ∧ b.value = -1
      · have hrest : a.value.tmod b.value = 0 := by simp [hmin.2.2]
        have hover : ArithOp.rem.Overflows ty a.value b.value 0 := Or.inr ⟨rfl, hmin⟩
        rw [if_pos hmin, hrest, ← zero_eq_wrap, decide_eq_true hover]
      · rw [if_neg hmin, reduced_eq hwide.remainder, hflag (fun h => hmin h.2)]

/-! ## Policies -/

/-- What the policies and the operator make of an exact result `e`: `r` is the value congruent to it. -/
structure Answers (op : ArithOp) (a b : FixedInt ty) (e : ℤ) (r : FixedInt ty) (overflow : Bool) :
    Prop where
  congruent : r.value ≡ e [ZMOD 2 ^ ty.width]
  reporting : arith op .reporting a b = .ok (r, overflow)
  wrapping : arith op .wrapping a b = .ok (r, false)
  trapping : arith op .trapping a b =
    if overflow then .error (.fatalOverflow .arithmetic) else .ok (r, false)
  operator : FixedInt.trapping op a b = if overflow then .error .arithmetic else .ok r

theorem answers_of_exact {op : ArithOp} {a b : FixedInt ty} {e : ℤ}
    (h : op.exact a.value b.value = .ok e) :
    Answers op a b e (wrap e) (decide (op.Overflows ty a.value b.value e)) := by
  have hop := overflowing_of_exact h
  constructor
  · exact value_wrap_modEq e
  · simp only [arith, hop]
  · simp only [arith, hop]
  · simp only [arith, hop]
  · simp only [FixedInt.trapping, hop]

/-- The three policies agree with exact integer arithmetic.  Without an exact result all of them fail
with its cause.  Otherwise there is one value congruent to it, which `reporting` gives with the overflow,
`wrapping` without, and `trapping` only if there is none; the wrapped quotient and remainder belong
together, and nothing on the way wraps in a wide word. -/
theorem arith_agrees (op : ArithOp) (a b : FixedInt ty) :
    (∀ cause, op.exact a.value b.value = .error cause →
      ∀ policy, arith op policy a b = .error (.fatalOverflow cause)) ∧
    (∀ e, op.exact a.value b.value = .ok e →
      ∃ r overflow, Answers op a b e r overflow ∧
        (overflow = true ↔ op.Overflows ty a.value b.value e)) ∧
    (b.value ≠ 0 → ∃ q r, arith .div .wrapping a b = .ok (q, false) ∧
      arith .rem .wrapping a b = .ok (r, false) ∧
      q.value * b.value + r.value ≡ a.value [ZMOD 2 ^ ty.width]) ∧
    WideExact a b := by
  refine ⟨?_, ?_, ?_, wideExact a b⟩
  · intro cause h policy
    simp only [arith, overflowing_of_error h]
  · intro e h
    exact ⟨_, _, answers_of_exact h, decide_eq_true_iff⟩
  · intro hb
    have hq : ArithOp.div.exact a.value b.value = .ok (a.value.tdiv b.value) := if_neg hb
    have hr : ArithOp.rem.exact a.value b.value = .ok (a.value.tmod b.value) := if_neg hb
    refine ⟨_, _, (answers_of_exact hq).wrapping, (answers_of_exact hr).wrapping, ?_⟩
    calc (wrap (a.value.tdiv b.value) : FixedInt ty).value * b.value +
          (wrap (a.value.tmod b.value) : FixedInt ty).value
        ≡ a.value.tdiv b.value * b.value + a.value.tmod b.value [ZMOD 2 ^ ty.width] :=
          ((value_wrap_modEq _).mul_right _).add (value_wrap_modEq _)
      _ = a.value := Int.tdiv_mul_add_tmod _ _

/-- The longest product, the remainder of an overflowing quotient, and a division by zero. -/
theorem arith_agrees_extremes :
    (∃ r overflow, Answers .mul (maximum : FixedInt { width := 64, signed := false }) maximum
        (18446744073709551615 * 18446744073709551615) r overflow ∧
      (overflow = true ↔ ArithOp.mul.Overflows { width := 64, signed := false }
        18446744073709551615 18446744073709551615
        (18446744073709551615 * 18446744073709551615))) ∧
    ((wrap (-1) : FixedInt { width := 8, signed := true }).value ≠ 0 ∧
      ∃ q r : FixedInt { width := 8, signed := true },
        arith .div .wrapping minimum (wrap (-1)) = .ok (q, false) ∧
        arith .rem .wrapping minimum (wrap (-1)) = .ok (r, false) ∧
        q.value * -1 + r.value ≡ -128 [ZMOD 2 ^ 8]) ∧
    ArithOp.div.exact (one : FixedInt { width := 16, signed := true }).value
        (zero : FixedInt { width := 16, signed := true }).value = .error .divisionByZero ∧
      arith .div .wrapping (one : FixedInt { width := 16, signed := true }) zero =
        .error (.fatalOverflow .divisionByZero) := by
  have hmax : (maximum : FixedInt { width := 64, signed := false }).value = 18446744073709551615 := by
    decide +kernel
  have hmin : (minimum : FixedInt { width := 8, signed := true }).value = -128 := by decide +kernel
  have hone : (wrap (-1) : FixedInt { width := 8, signed := true }).value = -1 := by decide +kernel
  have hexact : ArithOp.mul.exact (maximum : FixedInt { width := 64, signed := false }).value
      (maximum : FixedInt { width := 64, signed := false }).value =
        .ok (18446744073709551615 * 18446744073709551615) := by
    rw [hmax]
    rfl
  have hzero : ArithOp.div.exact (one : FixedInt { width := 16, signed := true }).value
      (zero : FixedInt { width := 16, signed := true }).value = .error .divisionByZero := by
    decide +kernel
  have hne : (wrap (-1) : FixedInt { width := 8, signed := true }).value ≠ 0 := by
    rw [hone]
    decide
  obtain ⟨-, hmul, -, -⟩ := arith_agrees .mul (maximum : FixedInt { width := 64, signed := false }) maximum
  obtain ⟨-, -, hrest, -⟩ := arith_agrees .rem (minimum : FixedInt { width := 8, signed := true }) (wrap (-1))
  obtain ⟨hdiv, -, -, -⟩ := arith_agrees .div (one : FixedInt { width := 16, signed := true }) zero
  refine ⟨?_, ⟨hne, ?_⟩, hzero, hdiv _ hzero _⟩
  · simpa only [hmax] using hmul _ hexact
  · simpa only [hmin, hone] using hrest hne

end FixedInt

end MachineNumbers
