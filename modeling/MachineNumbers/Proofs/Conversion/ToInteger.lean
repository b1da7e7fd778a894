import Mathlib
import MachineNumbers.BinaryFloat.Conversion
import MachineNumbers.Proofs.FixedInt.Conversion
import MachineNumbers.Proofs.Integral

/-!
# Floats become integers by truncation

A finite number loses its fraction, on whichever side of the point its last place lies
(`truncated?_of_fraction`, `truncated?_of_integral`), and from `2^64` on a cap stands in for it.  The cap lies
past the values of every type, so it changes neither what fits nor the bound that is nearest
(`fits_capped_iff`, `clamp_capped`), and every conversion follows the exact number without its fraction
(`toInteger_truncates`).
-/

namespace MachineNumbers

/-! ## Caps -/

/-- An integer, or the nearer of `-2^64` and `2^64` past them. -/
def capped (n : ℤ) : ℤ := max (-2 ^ 64) (min n (2 ^ 64))

theorem capped_signedInt (sign : Bool) (n : ℕ) :
    capped (signedInt sign n) = signedInt sign (min n (2 ^ 64)) := by
  unfold capped signedInt
  split <;> omega

namespace IntType

variable {ty : IntType} {n : ℤ}

theorem capped_of_fits (h : ty.Fits n) : capped n = n := by
  have := h.bounds
  unfold capped
  omega

/-- Capping the magnitude past every type changes no check of the range. -/
theorem fits_capped_iff : ty.Fits (capped n) ↔ ty.Fits n := by
  have := ty.bounds
  unfold Fits capped
  omega

/-- Nor does it change where a value is clamped to. -/
theorem clamp_capped : ty.clamp (capped n) = ty.clamp n := by
  have := ty.bounds
  unfold clamp capped
  omega

end IntType

/-! ## Without a fraction -/

theorem truncated_intCast (n : ℤ) : truncated n = n := by
  simp [truncated]

/-- The integral part below the point, with the sign put back, is the truncation. -/
theorem Splits.truncated_eq {v : ℚ} {integral rest half : ℕ} (h : Splits v integral rest half)
    (hpos : 0 < v) (sign : Bool) :
    truncated (if sign then -v else v) = signedInt sign integral :=
  (h.selects hpos .towardZero sign).symm

/-- Only without a rest is nothing lost. -/
theorem Splits.eq_signedInt_iff {v : ℚ} {integral rest half : ℕ} (h : Splits v integral rest half)
    (sign : Bool) : (if sign then -v else v) = signedInt sign integral ↔ rest = 0 := by
  rw [h.rest_eq_zero, cast_signedInt]
  cases sign <;> simp

namespace BinaryFloat

variable {fmt : FloatFormat} {ty : IntType} {x : BinaryFloat fmt}

/-- The integral part of the magnitude, capped, and whether there is a rest. -/
theorem some_truncated {integral rest half magnitude : ℕ} {exact : Bool}
    (h : Splits (fmt.magnitude x.word) integral rest half) (hzero : x.isZero = false)
    (hmagnitude : magnitude = min integral (2 ^ 64)) (hexact : exact = true ↔ rest = 0) :
    some (signedInt x.sign magnitude, exact) =
      some (capped (truncated x.value), decide (x.value = truncated x.value)) := by
  have hpos := magnitude_word_pos hzero
  have hvalue := h.truncated_eq hpos x.sign
  have hrest := h.eq_signedInt_iff x.sign
  rw [← value_eq_signed] at hvalue hrest
  rw [hvalue, capped_signedInt, hmagnitude]
  congr 2
  rw [Bool.eq_iff_iff, hexact, decide_eq_true_iff, hrest]

theorem truncated?_of_fraction (hx : x.isFinite = true) (hzero : x.isZero = false)
    (hexp : (x.unpack .gradual).exp < 0) :
    x.truncated? = some (capped (truncated x.value), decide (x.value = truncated x.value)) := by
  have hsig := unpack_sig_ne_zero hzero
  have hlt := unpack_sig_lt_two_pow x
  unfold truncated?
  simp only [hx, hsig, hexp.not_ge, unpack_sign, Bool.not_true, Bool.false_eq_true, if_false]
  by_cases hfar : 128 ≤ (x.unpack .gradual).exp.natAbs
  · -- all bits lie below the point
    rw [if_pos hfar]
    have hsplits := splits_of_far hsig (hlt.trans (by decide))
      (by omega : 64 ≤ (x.unpack .gradual).exp.natAbs)
    rw [← magnitude_of_fraction hexp] at hsplits
    exact some_truncated hsplits hzero (by simp) (by simp)
  · rw [if_neg hfar]
    have hsplits := splits_shiftRight (x.unpack .gradual).sig (Int.natAbs_pos.2 hexp.ne)
    rw [← magnitude_of_fraction hexp] at hsplits
    have hle := Nat.shiftRight_le (x.unpack .gradual).sig (x.unpack .gradual).exp.natAbs
    exact some_truncated hsplits hzero (by omega) (by simp)

theorem truncated?_of_integral (hx : x.isFinite = true) (hzero : x.isZero = false)
    (hexp : 0 ≤ (x.unpack .gradual).exp) :
    x.truncated? = some (capped (truncated x.value), decide (x.value = truncated x.value)) := by
  have hsplits := splits_natCast ((x.unpack .gradual).sig <<< (x.unpack .gradual).exp.toNat)
  have hlead := leadExp_unpack_lt_iff hzero 64
  rw [← magnitude_of_integral hexp] at hsplits
  rw [magnitude_of_integral hexp] at hlead
  have hcap : (x.unpack .gradual).leadExp < 64 ↔
      (x.unpack .gradual).sig <<< (x.unpack .gradual).exp.toNat < 2 ^ 64 :=
    hlead.trans (by exact_mod_cast Iff.rfl)
  unfold truncated?
  simp only [hx, unpack_sig_ne_zero hzero, hexp, unpack_sign, Bool.not_true, Bool.false_eq_true,
    if_true, if_false]
  by_cases hlarge : 64 ≤ (x.unpack .gradual).leadExp
  · -- the cap stands in for the number, which has no fraction either
    rw [if_pos hlarge]
    have hge := not_lt.1 (mt hcap.2 hlarge.not_gt)
    exact some_truncated hsplits hzero (min_eq_right hge).symm (by simp)
  · rw [if_neg hlarge]
    have hlt := hcap.1 (not_le.1 hlarge)
    exact some_truncated hsplits hzero (min_eq_left hlt.le).symm (by simp)

/-- Truncation is exact on the number, up to the cap. -/
theorem truncated?_of_isFinite (hx : x.isFinite = true) :
    x.truncated? = some (capped (truncated x.value), decide (x.value = truncated x.value)) := by
  cases hzero : x.isZero with
  | true =>
    have hsig := (unpack_sig_eq_zero x).2 hzero
    rw [value_of_isZero hzero]
    simp [truncated?, hx, hsig, truncated, capped]
  | false =>
    rcases Int.lt_or_le (x.unpack .gradual).exp 0 with hexp | hexp
    · exact truncated?_of_fraction hx hzero hexp
    · exact truncated?_of_integral hx hzero hexp

theorem truncated?_of_not_isFinite (hx : x.isFinite = false) : x.truncated? = none := by
  unfold truncated?
  rw [hx]
  rfl

/-! ## Conversions -/

theorem toFixedInt_of_fits (hx : x.isFinite = true) (h : ty.Fits (truncated x.value)) :
    x.toFixedInt ty = .ok (FixedInt.wrap (truncated x.value)) := by
  unfold toFixedInt
  rw [truncated?_of_isFinite hx, IntType.capped_of_fits h]
  exact FixedInt.ofIntTrapping_of_fits h

theorem toFixedInt_of_not_fits (hx : x.isFinite = true) (h : ¬ty.Fits (truncated x.value)) :
    x.toFixedInt ty = .error .conversion := by
  unfold toFixedInt
  rw [truncated?_of_isFinite hx]
  exact FixedInt.ofIntTrapping_of_not_fits (mt IntType.fits_capped_iff.1 h)

/-- An integral number is the one that it is truncated to. -/
theorem toFixedIntExactly?_eq_some_iff (hx : x.isFinite = true) {a : FixedInt ty} :
    x.toFixedIntExactly? ty = some a ↔ x.value = a.value := by
  unfold toFixedIntExactly?
  rw [truncated?_of_isFinite hx]
  by_cases hint : x.value = truncated x.value
  · rw [decide_eq_true hint]
    refine FixedInt.ofInt?_eq_some_iff.trans ⟨fun h => ?_, fun h => ?_⟩
    · have hfits := IntType.fits_capped_iff.1 (h ▸ a.fits_value)
      rw [h, IntType.capped_of_fits hfits]
      exact hint
    · have hvalue : truncated x.value = a.value := by
        rw [h]
        exact truncated_intCast _
      rw [hvalue, IntType.capped_of_fits a.fits_value]
  · rw [decide_eq_false hint]
    refine iff_of_false (by simp) fun h => hint ?_
    rw [h]
    exact congrArg _ (truncated_intCast _).symm

theorem toIntSaturating_of_isFinite (hx : x.isFinite = true) :
    x.toIntSaturating ty = ty.clamp (truncated x.value) := by
  unfold toIntSaturating
  rw [truncated?_of_isFinite hx]
  exact IntType.clamp_capped

/-- The conversions of a number to a type, where `t` is the number without its fraction. -/
structure TruncatesTo (ty : IntType) (x : BinaryFloat fmt) (t : ℤ) : Prop where
  fits : ty.Fits t → ∃ a : FixedInt ty, a.value = t ∧
    x.toFixedInt ty = .ok a ∧ x.toFixedIntChecked ty = .ok a
  overflow : ¬ty.Fits t → x.toFixedInt ty = .error .conversion ∧
    x.toFixedIntChecked ty = .error (.fatalOverflow .conversion)
  exact : ∀ a : FixedInt ty, x.toFixedIntExactly? ty = some a ↔ x.value = a.value
  inexact : x.toFixedIntExactly? ty = none ↔ ¬∃ n : ℤ, x.value = n ∧ ty.Fits n
  saturates : x.toIntSaturating ty = ty.clamp t

/-- Each of the three conversions by the truncated value. -/
theorem truncatesTo (ty : IntType) (hx : x.isFinite = true) : TruncatesTo ty x (truncated x.value) where
  fits h := by
    refine ⟨FixedInt.wrap (truncated x.value), FixedInt.value_wrap _ h, toFixedInt_of_fits hx h, ?_⟩
    rw [toFixedIntChecked, toFixedInt_of_fits hx h]
    rfl
  overflow h := by
    refine ⟨toFixedInt_of_not_fits hx h, ?_⟩
    rw [toFixedIntChecked, toFixedInt_of_not_fits hx h]
    rfl
  exact _ := toFixedIntExactly?_eq_some_iff hx
  inexact := by
    rw [Option.eq_none_iff_forall_ne_some, not_exists]
    refine ⟨fun h n hn => ?_, fun h a ha => ?_⟩
    · refine h (FixedInt.wrap n) ((toFixedIntExactly?_eq_some_iff hx).2 ?_)
      rw [FixedInt.value_wrap n hn.2, hn.1]
    · exact h a.value ⟨(toFixedIntExactly?_eq_some_iff hx).1 ha, a.fits_value⟩
  saturates := toIntSaturating_of_isFinite hx

/-- Floats become integers by truncation.  Of a number, every conversion follows the exact number without its
fraction; what is not a number is an error, or nothing, and saturates by its kind. -/
theorem toInteger_truncates (ty : IntType) (x : BinaryFloat fmt) :
    (x.isFinite = true → TruncatesTo ty x (truncated x.value)) ∧
    (x.isFinite = false → x.toFixedInt ty = .error .nonFinite ∧
      x.toFixedIntChecked ty = .error (.fatalOverflow .nonFinite) ∧
      x.toFixedIntExactly? ty = none) ∧
    (x.isNaN = true → x.toIntSaturating ty = 0) ∧
    (x.isInfinite = true →
      x.toIntSaturating ty = if x.sign then ty.minValue else ty.maxValue) := by
  refine ⟨truncatesTo ty, fun hx => ?_, fun hnan => ?_, fun hinf => ?_⟩
  · unfold toFixedIntChecked toFixedInt toFixedIntExactly?
    rw [truncated?_of_not_isFinite hx]
    exact ⟨rfl, rfl, rfl⟩
  · unfold toIntSaturating
    rw [truncated?_of_not_isFinite (isFinite_of_isNaN hnan), hnan]
    rfl
  · unfold toIntSaturating
    rw [truncated?_of_not_isFinite (isFinite_of_isInfinite hinf), isNaN_of_isInfinite hinf]
    rfl

/-- The bounds of 64 bits with a sign: `-2^63` is the least value, `2^63` is past the greatest. -/
theorem toInteger_truncates_bounds :
    let ty : IntType := { width := 64, signed := true }
    let x : BinaryFloat .binary64 := powerOfTwo 63
    (∃ a : FixedInt ty, a.value = -2 ^ 63 ∧ (-x).toFixedIntChecked ty = .ok a) ∧
    (x.toFixedIntChecked ty = .error (.fatalOverflow .conversion) ∧ x.toFixedIntExactly? ty = none ∧
      x.toIntSaturating ty = 2 ^ 63 - 1) ∧
    (infinity true : BinaryFloat .binary64).toFixedInt ty = .error .nonFinite ∧
    (infinity true : BinaryFloat .binary64).toIntSaturating ty = -2 ^ 63 ∧
    (nan : BinaryFloat .binary64).toIntSaturating ty = 0 := by
  intro ty x
  have hx : x.isFinite = true := by decide +kernel
  have hvalue : x.value = (2 ^ 63 : ℤ) := by
    rw [value_powerOfTwo (by decide) (by decide)]
    norm_num
  have hneg : (-x).value = (-2 ^ 63 : ℤ) := by
    rw [value_neg, hvalue]
    norm_num
  have htruncates := (toInteger_truncates ty x).1 hx
  have hnegTruncates := (toInteger_truncates ty (-x)).1 hx
  rw [hvalue, truncated_intCast] at htruncates
  rw [hneg, truncated_intCast] at hnegTruncates
  obtain ⟨a, ha, -, hok⟩ := hnegTruncates.fits (by decide)
  obtain ⟨-, hnonFinite, -, hinfinite⟩ :=
    toInteger_truncates ty (infinity true : BinaryFloat .binary64)
  refine ⟨⟨a, ha, hok⟩, ⟨(htruncates.overflow (by decide)).2, htruncates.inexact.2 ?_, ?_⟩,
    (hnonFinite (by decide +kernel)).1, hinfinite (isInfinite_infinity true),
    (toInteger_truncates ty nan).2.2.1 (by decide +kernel)⟩
  · rintro ⟨n, hn, hfits⟩
    rw [hvalue, Int.cast_inj] at hn
    rw [← hn] at hfits
    exact absurd hfits (by decide)
  · exact htruncates.saturates.trans (by decide)

end BinaryFloat

end MachineNumbers
