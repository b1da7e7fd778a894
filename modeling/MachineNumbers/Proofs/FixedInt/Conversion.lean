import Mathlib
import MachineNumbers.FixedInt.Conversion
import MachineNumbers.Proofs.FixedInt.Residue

/-!
# Conversions between integer types agree

Whether the value is one of the target's decides them all: if it is, every conversion gives it
(`keeps_of_fits`), and if not, the conversions that keep values give none and clamping gives the nearer
bound (`refuses_of_not_fits`).  Truncation gives the congruent value, and between types of one width a
pattern goes there and back (`conversions_agree`).
-/

namespace MachineNumbers

namespace IntType

variable {ty : IntType} {v : ℤ}

theorem clamp_of_fits (h : ty.Fits v) : ty.clamp v = v := by
  obtain ⟨hmin, hmax⟩ := h
  unfold clamp
  omega

theorem clamp_of_lt (h : v < ty.minValue) : ty.clamp v = ty.minValue := by
  unfold clamp
  omega

theorem clamp_of_gt (h : ty.maxValue < v) : ty.clamp v = ty.maxValue := by
  have := ty.minValue_nonpos
  have := ty.maxValue_nonneg
  unfold clamp
  omega

/-- What is clamped is in range. -/
theorem fits_clamp (ty : IntType) (v : ℤ) : ty.Fits (ty.clamp v) := by
  have := ty.minValue_nonpos
  have := ty.maxValue_nonneg
  unfold Fits clamp
  omega

/-- No value of the type is nearer. -/
theorem abs_clamp_sub_le (v : ℤ) {w : ℤ} (h : ty.Fits w) : |ty.clamp v - v| ≤ |w - v| := by
  obtain ⟨hmin, hmax⟩ := h
  unfold clamp
  rcases lt_trichotomy w v with hlt | rfl | hgt
  · rw [abs_of_nonpos (by omega), abs_of_nonpos (by omega)]
    omega
  · rw [sub_self, abs_zero, abs_nonpos_iff]
    omega
  · rw [abs_of_nonneg (by omega), abs_of_nonneg (by omega)]
    omega

end IntType

namespace FixedInt

variable {source target : IntType}

/-- Every conversion of `x` gives `y`. -/
structure Keeps (x : FixedInt source) (y : FixedInt target) : Prop where
  exact : x.convert target .exact = .ok (some y)
  failable : x.convert target .failable = .ok (some y)
  exactly : x.exactly? target = some y
  exactlyChecked : x.exactlyChecked target = .ok y
  exactlyTrapping : x.exactlyTrapping target = .ok y
  clamping : x.clamping target = y
  truncating : x.truncating target = y

/-- The conversions that keep values have none for `x`, and clamping gives the nearer bound. -/
structure Refuses (target : IntType) (x : FixedInt source) : Prop where
  exact : x.convert target .exact = .error .range
  failable : x.convert target .failable = .ok none
  exactly : x.exactly? target = none
  exactlyChecked : x.exactlyChecked target = .error .range
  exactlyTrapping : x.exactlyTrapping target = .error .conversion
  bound : x.clamping target = minimum ∨ x.clamping target = maximum
  nearest : ∀ v, target.Fits v → |(x.clamping target).value - x.value| ≤ |v - x.value|

theorem keeps_of_fits {x : FixedInt source} (h : target.Fits x.value) :
    Keeps x (wrap x.value : FixedInt target) := by
  have hexactly : x.exactly? target = some (wrap x.value) := ofInt?_of_fits h
  constructor
  · simp only [convert, if_pos h]
  · simp only [convert, if_pos h]
  · exact hexactly
  · unfold exactlyChecked ofIntChecked
    rw [if_pos h]
  · simp only [exactlyTrapping, hexactly]
  · unfold clamping
    rw [IntType.clamp_of_fits h]
  · rfl

theorem value_clamping (target : IntType) (x : FixedInt source) :
    (x.clamping target).value = target.clamp x.value :=
  value_wrap _ (target.fits_clamp x.value)

theorem refuses_of_not_fits {x : FixedInt source} (h : ¬target.Fits x.value) : Refuses target x := by
  have hexactly : x.exactly? target = none := ofInt?_eq_none_iff.2 h
  constructor
  · simp only [convert, if_neg h]
  · simp only [convert, if_neg h]
  · exact hexactly
  · unfold exactlyChecked ofIntChecked
    rw [if_neg h]
  · simp only [exactlyTrapping, hexactly]
  · unfold clamping minimum maximum
    rcases lt_or_ge x.value target.minValue with hlt | hge
    · exact Or.inl (by rw [IntType.clamp_of_lt hlt])
    · have hgt : target.maxValue < x.value := not_le.1 fun hle => h ⟨hge, hle⟩
      exact Or.inr (by rw [IntType.clamp_of_gt hgt])
  · intro v hv
    rw [value_clamping]
    exact IntType.abs_clamp_sub_le x.value hv

/-! ## Patterns of one width -/

theorem ofNat_eq_truncating (hwidth : source.width = target.width) (x : FixedInt source) :
    (⟨BitPattern.ofNat target.width x.bits.toNat⟩ : FixedInt target) = x.truncating target := by
  rw [ofNat_eq_wrap]
  apply wrap_congr
  rw [← hwidth]
  exact x.value_modEq_toNat.symm

theorem reinterpret_eq_truncating (hwidth : target.width = source.width) (x : FixedInt source) :
    x.reinterpret target hwidth = x.truncating target := by
  have hbits : (x.reinterpret target hwidth).bits.toNat = x.bits.toNat := by
    show (x.bits.toBitVec.cast hwidth.symm).toNat = x.bits.toBitVec.toNat
    rw [BitVec.toNat_cast]
  apply eq_wrap_of_modEq
  calc (x.reinterpret target hwidth).value
      ≡ x.bits.toNat [ZMOD 2 ^ target.width] := hbits ▸ value_modEq_toNat _
    _ ≡ x.value [ZMOD 2 ^ target.width] := by
        rw [hwidth]
        exact x.value_modEq_toNat.symm

/-- Between types of one width truncation can be undone. -/
theorem truncating_truncating (hwidth : source.width = target.width) (x : FixedInt source) :
    (x.truncating target).truncating source = x := by
  refine (eq_wrap_of_modEq ?_).symm
  rw [hwidth]
  exact (value_wrap_modEq x.value).symm

/-- The modes of `convert` and the functions beside it agree on every value: they succeed with it if it
is one of the target's and fail each in its way if not, truncation gives the value congruent to it, and
patterns are taken as they are between types of one width, where the way back restores them. -/
theorem conversions_agree (target : IntType) (x : FixedInt source) :
    (target.Fits x.value → ∃ y : FixedInt target, y.value = x.value ∧ Keeps x y) ∧
    (¬target.Fits x.value → Refuses target x) ∧
    (x.truncating target).value ≡ x.value [ZMOD 2 ^ target.width] ∧
    x.convert target .clamping = .ok (some (x.clamping target)) ∧
    x.convert target .truncatingReinterpret = .ok (some (x.truncating target)) ∧
    (∀ hwidth : target.width = source.width,
      x.convert target .bitPatternReinterpret = .ok (some (x.truncating target)) ∧
      x.reinterpret target hwidth = x.truncating target ∧
      (x.truncating target).convert source .bitPatternReinterpret = .ok (some x) ∧
      (x.truncating target).reinterpret source hwidth.symm = x) ∧
    (target.width ≠ source.width →
      x.convert target .bitPatternReinterpret =
        .error (.invalidWidthPairing source.width target.width)) := by
  refine ⟨?_, refuses_of_not_fits, value_wrap_modEq _, rfl, rfl, ?_, ?_⟩
  · intro h
    exact ⟨wrap x.value, value_wrap _ h, keeps_of_fits h⟩
  · intro hwidth
    refine ⟨?_, reinterpret_eq_truncating hwidth x, ?_, ?_⟩
    · simp only [convert, if_pos hwidth.symm, ofNat_eq_truncating hwidth.symm]
    · simp only [convert, if_pos hwidth, ofNat_eq_truncating hwidth,
        truncating_truncating hwidth.symm]
    · rw [reinterpret_eq_truncating, truncating_truncating hwidth.symm]
  · intro hwidth
    simp only [convert, if_neg (Ne.symm hwidth)]

/-- The least integer of 16 bits in types of 32, 8 and 16 bits. -/
theorem conversions_agree_minimum :
    (IntType.Fits { width := 32, signed := true } (-32768) ∧
      ∃ y : FixedInt { width := 32, signed := true }, y.value = -32768 ∧
        Keeps (minimum : FixedInt { width := 16, signed := true }) y) ∧
    (¬IntType.Fits { width := 8, signed := true } (-32768) ∧
      Refuses { width := 8, signed := true } (minimum : FixedInt { width := 16, signed := true })) ∧
    (minimum : FixedInt { width := 16, signed := true }).convert { width := 16, signed := false }
      .bitPatternReinterpret = .ok (some (wrap 32768)) ∧
    (minimum : FixedInt { width := 16, signed := true }).convert { width := 8, signed := true }
      .bitPatternReinterpret = .error (.invalidWidthPairing 16 8) := by
  have hvalue : (minimum : FixedInt { width := 16, signed := true }).value = -32768 := by
    decide +kernel
  have hfits : IntType.Fits { width := 32, signed := true } (-32768) := by decide
  have hnot : ¬IntType.Fits { width := 8, signed := true } (-32768) := by decide
  have hpattern : (minimum : FixedInt { width := 16, signed := true }).truncating
      { width := 16, signed := false } = wrap 32768 := by decide +kernel
  obtain ⟨hkeeps, -, -, -, -, -, -⟩ := conversions_agree { width := 32, signed := true }
    (minimum : FixedInt { width := 16, signed := true })
  obtain ⟨-, hrefuses, -, -, -, -, hpairing⟩ := conversions_agree { width := 8, signed := true }
    (minimum : FixedInt { width := 16, signed := true })
  obtain ⟨-, -, -, -, -, hsame, -⟩ := conversions_agree { width := 16, signed := false }
    (minimum : FixedInt { width := 16, signed := true })
  refine ⟨⟨hfits, ?_⟩, ⟨hnot, hrefuses (by rwa [hvalue])⟩, ?_, hpairing (by decide)⟩
  · obtain ⟨y, hy, h⟩ := hkeeps (by rwa [hvalue])
    exact ⟨y, hy.trans hvalue, h⟩
  · rw [(hsame rfl).1, hpattern]

end FixedInt

end MachineNumbers
