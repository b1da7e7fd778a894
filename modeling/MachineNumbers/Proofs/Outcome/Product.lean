import Mathlib
import MachineNumbers.Proofs.Outcome.Basic

/-!
# How products and fused sums end

An infinite factor gives an infinity unless the other one is zero, a zero factor a zero.  A fused sum packs
the exact sum of its first operand and the exact product of the others.
-/

namespace MachineNumbers

open BinaryFloat

namespace Operation

variable {fmt : FloatFormat} {x y z : BinaryFloat fmt}

/-! ## Products -/

/-- An infinite factor and one that is zero are two factors. -/
theorem invalid_product_iff (h : x.isInfinite = true ∨ y.isInfinite = true) :
    (x.isInfinite = true ∧ y.isZero = true) ∨ (x.isZero = true ∧ y.isInfinite = true) ↔
      (x.isZero || y.isZero) = true := by
  rw [Bool.or_eq_true]
  constructor
  · rintro (⟨-, hz⟩ | ⟨hz, -⟩)
    · exact Or.inr hz
    · exact Or.inl hz
  · rintro (hz | hz)
    · refine Or.inr ⟨hz, h.resolve_left fun hi => ?_⟩
      simp [isZero_of_isInfinite hi] at hz
    · refine Or.inl ⟨h.resolve_right fun hi => ?_, hz⟩
      simp [isZero_of_isInfinite hi] at hz

theorem mul_value_eq_zero (h : (x.unpack .gradual).sig = 0 ∨ (y.unpack .gradual).sig = 0) :
    x.value * y.value = 0 := by
  rw [unpack_sig_eq_zero, unpack_sig_eq_zero] at h
  exact mul_eq_zero.2 (h.imp value_of_isZero value_of_isZero)

/-- The exact result of a product of numbers is their product. -/
theorem exactResult?_mul (hxf : x.isFinite = true) (hyf : y.isFinite = true) :
    (mul x y).exactResult? = some ((x.value * y.value : ℚ) : ℝ) := by
  simp [exactResult?, operands, hxf, hyf]

/-- Products by the kinds of their operands. -/
theorem mul_endsAs (hnan : propagatedNaN? [x, y] = none) : ∃ f, (mul x y).EndsAs f := by
  have hread := fun mode => @plain_binary fmt (mul x y) x y mode rfl
  cases hinf : x.isInfinite || y.isInfinite with
  | true =>
    have hinf' := Bool.or_eq_true_iff.1 hinf
    have hexact : (mul x y).exactResult? = none := by
      rcases hinf' with hi | hi
      · exact exactResult?_of_infinite (x := x) (by simp [operands]) hi
      · exact exactResult?_of_infinite (x := y) (by simp [operands]) hi
    have hinvalid : (mul x y).Invalid .gradual ↔ (x.isZero || y.isZero) = true := by
      simp only [Invalid, readsAsZero_gradual]
      exact invalid_product_iff hinf'
    cases hz : x.isZero || y.isZero with
    | true =>
      refine ⟨_, .invalid hnan (hinvalid.2 hz) hexact, fun mode h => ?_⟩
      obtain ⟨⟨-, hx⟩, -, hy⟩ := hread mode h
      simp [eval, BinaryFloat.mul, hnan, hinf, hx, hy, hz]
    | false =>
      refine ⟨_, .infinite (x.sign != y.sign) hnan (by simp [hinvalid, hz]) hexact, fun mode h => ?_⟩
      obtain ⟨⟨-, hx⟩, -, hy⟩ := hread mode h
      simp [eval, BinaryFloat.mul, hnan, hinf, hx, hy, hz]
  | false =>
  obtain ⟨hxi, hyi⟩ := Bool.or_eq_false_iff.1 hinf
  have hvalid : ¬(mul x y).Invalid .gradual := by simp [Invalid, hxi, hyi]
  have hexact := exactResult?_mul (x := x) (y := y) (isFinite_of_mem hnan (by simp) hxi)
    (isFinite_of_mem hnan (by simp) hyi)
  have heval : ∀ mode, (mul x y).Plain mode → (mul x y).eval mode =
      if (x.unpack .gradual).sig = 0 ∨ (y.unpack .gradual).sig = 0 then .zero (x.sign != y.sign)
      else roundPack mode ((x.unpack .gradual).mul (y.unpack .gradual)) false := by
    intro mode h
    obtain ⟨⟨hx, -⟩, hy, -⟩ := hread mode h
    simp [eval, BinaryFloat.mul, hnan, hxi, hyi, hx, hy]
  by_cases hzero : (x.unpack .gradual).sig = 0 ∨ (y.unpack .gradual).sig = 0
  · rw [mul_value_eq_zero hzero] at hexact
    exact ⟨_, .exactZero _ hnan hvalid hexact, fun mode h => by rw [heval mode h, if_pos hzero]⟩
  · exact ⟨_, .ofExact hnan hvalid (value_mul_unpack x y) ((mul_sig_lt x y).trans (by decide)) hexact,
      fun mode h => by rw [heval mode h, if_neg hzero]⟩

/-! ## Fused sums -/

theorem plain_addProduct {mode : SubnormalMode} (h : (addProduct x y z).Plain mode) :
    x.unpack mode = x.unpack .gradual ∧
      (y.unpack mode = y.unpack .gradual ∧ y.readsAsZero mode = y.isZero) ∧
      (z.unpack mode = z.unpack .gradual ∧ z.readsAsZero mode = z.isZero) := by
  have hx := h x (by simp [operands])
  have hy := h y (by simp [operands])
  have hz := h z (by simp [operands])
  exact ⟨unpack_of_plain hx, ⟨unpack_of_plain hy, readsAsZero_of_plain hy⟩, unpack_of_plain hz,
    readsAsZero_of_plain hz⟩

theorem exactResult?_addProduct (hxf : x.isFinite = true) (hyf : y.isFinite = true)
    (hzf : z.isFinite = true) :
    (addProduct x y z).exactResult? = some ((x.value + y.value * z.value : ℚ) : ℝ) := by
  simp [exactResult?, operands, hxf, hyf, hzf]

theorem propagatedNaN?_addProduct (hxf : x.isFinite = true) (hyf : y.isFinite = true)
    (hzf : z.isFinite = true) : propagatedNaN? [x, y, z] = none := by
  simp [propagatedNaN?, isNaN_of_isFinite hxf, isNaN_of_isFinite hyf, isNaN_of_isFinite hzf]

/-- Of finite numbers, a zero product leaves the other one to be packed, and a zero leaves the product. -/
theorem addProduct_eval (hxf : x.isFinite = true) (hyf : y.isFinite = true) (hzf : z.isFinite = true)
    (mode : SubnormalMode) (h : (addProduct x y z).Plain mode) : (addProduct x y z).eval mode =
      if (y.unpack .gradual).sig = 0 ∨ (z.unpack .gradual).sig = 0 then
        if (x.unpack .gradual).sig = 0 then .zero ((x.unpack .gradual).sign && (y.sign != z.sign))
        else roundPack mode (x.unpack .gradual) false
      else if (x.unpack .gradual).sig = 0 then
        roundPack mode ((y.unpack .gradual).mul (z.unpack .gradual)) false
      else roundPack mode
        ((x.unpack .gradual).add ((y.unpack .gradual).mul (z.unpack .gradual))).1
        ((x.unpack .gradual).add ((y.unpack .gradual).mul (z.unpack .gradual))).2 := by
  obtain ⟨hx, ⟨hy, -⟩, hz, -⟩ := plain_addProduct h
  simp [eval, BinaryFloat.addProduct, propagatedNaN?_addProduct hxf hyf hzf, isInfinite_of_isFinite hxf,
    isInfinite_of_isFinite hyf, isInfinite_of_isFinite hzf, hx, hy, hz]

/-- The fused product of numbers: one rounding, or the sign rule when the sum vanishes. -/
theorem addProduct_endsAs_of_finite (hxf : x.isFinite = true) (hyf : y.isFinite = true)
    (hzf : z.isFinite = true) : ∃ f, (addProduct x y z).EndsAs f := by
  have hnan := propagatedNaN?_addProduct hxf hyf hzf
  have hvalid : ¬(addProduct x y z).Invalid .gradual := by
    simp [Invalid, isInfinite_of_isFinite hxf, isInfinite_of_isFinite hyf, isInfinite_of_isFinite hzf]
  have hexact := exactResult?_addProduct hxf hyf hzf
  have heval := addProduct_eval hxf hyf hzf
  by_cases hp0 : (y.unpack .gradual).sig = 0 ∨ (z.unpack .gradual).sig = 0
  · rw [mul_value_eq_zero hp0, add_zero] at hexact
    by_cases hx0 : (x.unpack .gradual).sig = 0
    · rw [value_of_isZero ((unpack_sig_eq_zero x).1 hx0)] at hexact
      exact ⟨_, .exactZero _ hnan hvalid hexact,
        fun mode h => by rw [heval mode h, if_pos hp0, if_pos hx0]⟩
    · exact ⟨_, .ofOperand hnan hvalid hexact,
        fun mode h => by rw [heval mode h, if_pos hp0, if_neg hx0]⟩
  · by_cases hx0 : (x.unpack .gradual).sig = 0
    · rw [value_of_isZero ((unpack_sig_eq_zero x).1 hx0), zero_add] at hexact
      exact ⟨_, .ofExact hnan hvalid (value_mul_unpack y z) ((mul_sig_lt y z).trans (by decide)) hexact,
        fun mode h => by rw [heval mode h, if_neg hp0, if_pos hx0]⟩
    · have hp0' : ((y.unpack .gradual).mul (z.unpack .gradual)).sig ≠ 0 := by
        rw [not_or] at hp0
        exact Nat.mul_ne_zero hp0.1 hp0.2
      have hsum := Unpacked.add_sumOf hx0 (unpack_sig_lt_two_pow_125 x) hp0' (mul_sig_lt y z)
      rw [value_unpack, value_mul_unpack] at hsum
      exact ⟨_, .packed hnan hvalid hsum.standsFor (hsum.sig_lt.trans (by decide))
        (fun h => bits_le (hsum.le_sig h) (by decide)) (.inl hexact),
        fun mode h => by rw [heval mode h, if_neg hp0, if_neg hx0]⟩

theorem addProduct_endsAs (hnan : propagatedNaN? [x, y, z] = none) :
    ∃ f, (addProduct x y z).EndsAs f := by
  cases hinf : y.isInfinite || z.isInfinite with
  | true =>
    have hinf' := Bool.or_eq_true_iff.1 hinf
    have hexact : (addProduct x y z).exactResult? = none := by
      rcases hinf' with hi | hi
      · exact exactResult?_of_infinite (x := y) (by simp [operands]) hi
      · exact exactResult?_of_infinite (x := z) (by simp [operands]) hi
    have hinvalid : (addProduct x y z).Invalid .gradual ↔ (y.isZero || z.isZero) = true ∨
        (x.isInfinite && x.sign != (y.sign != z.sign)) = true := by
      rw [← invalid_product_iff hinf', Bool.and_eq_true, bne_iff_ne, or_assoc]
      simp only [Invalid, readsAsZero_gradual, hinf', true_and]
    cases hz : y.isZero || z.isZero with
    | true =>
      refine ⟨_, .invalid hnan (hinvalid.2 (.inl hz)) hexact, fun mode h => ?_⟩
      obtain ⟨-, ⟨-, hyr⟩, -, hzr⟩ := plain_addProduct h
      simp [eval, BinaryFloat.addProduct, hnan, hinf, hyr, hzr, hz]
    | false =>
    cases hcancel : x.isInfinite && x.sign != (y.sign != z.sign) with
    | true =>
      refine ⟨_, .invalid hnan (hinvalid.2 (.inr hcancel)) hexact, fun mode h => ?_⟩
      obtain ⟨-, ⟨-, hyr⟩, -, hzr⟩ := plain_addProduct h
      simp [eval, BinaryFloat.addProduct, hnan, hinf, hyr, hzr, hz, hcancel]
    | false =>
      refine ⟨_, .infinite (y.sign != z.sign) hnan ?_ hexact, fun mode h => ?_⟩
      · rw [hinvalid, hz, hcancel]
        simp
      · obtain ⟨-, ⟨-, hyr⟩, -, hzr⟩ := plain_addProduct h
        simp [eval, BinaryFloat.addProduct, hnan, hinf, hyr, hzr, hz, hcancel]
  | false =>
  obtain ⟨hyi, hzi⟩ := Bool.or_eq_false_iff.1 hinf
  cases hxi : x.isInfinite with
  | true =>
    refine ⟨_, .infinite x.sign hnan (by simp [Invalid, hyi, hzi])
      (exactResult?_of_infinite (x := x) (by simp [operands]) hxi), fun mode _ => ?_⟩
    rw [← eq_infinity_of_isInfinite hxi]
    simp [eval, BinaryFloat.addProduct, hnan, hxi, hyi, hzi]
  | false =>
    exact addProduct_endsAs_of_finite (isFinite_of_mem hnan (by simp) hxi)
      (isFinite_of_mem hnan (by simp) hyi) (isFinite_of_mem hnan (by simp) hzi)

end Operation

end MachineNumbers
