import Mathlib
import MachineNumbers.Proofs.Magnitude

/-!
# The float nearest to a number

`BinaryFloat.IsNearest v x` says that `x` is `v` rounded to nearest, ties to even, with gradual
underflow, and infinite from half way between the greatest finite number and the next power of two.
A float of the sign of `v` is nearest to it if `|v|` rounds to its word (`isNearest_of_roundsTo`), and
only then if both are positive (`IsNearest.isNearestWord`).
-/

namespace MachineNumbers

namespace BinaryFloat

variable {fmt : FloatFormat}

/-- The number of a finite float. -/
def value (x : BinaryFloat fmt) : ℚ := (if x.sign then -1 else 1) * fmt.magnitude x.word

end BinaryFloat

/-- Half way from the greatest finite number to the next power of two. -/
def FloatFormat.overflowBound (fmt : FloatFormat) : ℚ :=
  ((BinaryFloat.greatestFinite : BinaryFloat fmt).value + 2 ^ (fmt.maxLead + 1)) / 2

namespace BinaryFloat

variable {fmt : FloatFormat}

/-- `x` is `v` rounded to nearest: the infinity of its sign from the overflow bound on, and else the
finite float nearest to it, whose word is even if another is as near. -/
structure IsNearest (v : ℚ) (x : BinaryFloat fmt) : Prop where
  not_isNaN : x.isNaN = false
  isInfinite_iff : x.isInfinite = true ↔ fmt.overflowBound ≤ |v|
  sign_of_isInfinite : x.isInfinite = true → (x.sign = true ↔ v < 0)
  nearest : ∀ y : BinaryFloat fmt, x.isFinite = true → y.isFinite = true →
    |x.value - v| ≤ |y.value - v|
  even_of_tie : ∀ y : BinaryFloat fmt, x.isFinite = true → y.isFinite = true → y.value ≠ x.value →
    |x.value - v| = |y.value - v| → x.word % 2 = 0

/-! ## Kinds of words -/

/-- The finite encodings are those below infinity. -/
theorem isFinite_iff (x : BinaryFloat fmt) : x.isFinite = true ↔ x.word < fmt.infinityWord := by
  simp [isFinite]

theorem isInfinite_iff_word (x : BinaryFloat fmt) :
    x.isInfinite = true ↔ x.word = fmt.infinityWord := by
  simp [isInfinite]

theorem isZero_eq_false_iff (x : BinaryFloat fmt) : x.isZero = false ↔ x.word ≠ 0 := by
  simp [isZero]

/-- The encodings that are not NaNs end with infinity. -/
theorem isNaN_eq_false_iff (x : BinaryFloat fmt) : x.isNaN = false ↔ x.word ≤ fmt.infinityWord := by
  simp [isNaN]

/-- The sign and the rest of the word make up an encoding. -/
theorem ext_word {x y : BinaryFloat fmt} (hs : x.sign = y.sign) (hw : x.word = y.word) : x = y := by
  cases x
  cases y
  simp_all

/-- The sign has no part in how large a value is. -/
theorem abs_value (x : BinaryFloat fmt) : |x.value| = fmt.magnitude x.word := by
  have := fmt.magnitude_nonneg x.word
  unfold value
  split
  · rw [neg_one_mul, abs_neg, abs_of_nonneg this]
  · rw [one_mul, abs_of_nonneg this]

theorem value_of_sign_eq_false {x : BinaryFloat fmt} (hs : x.sign = false) :
    x.value = fmt.magnitude x.word := by
  rw [value, hs]
  exact one_mul _

theorem value_of_pos {x : BinaryFloat fmt} (h : 0 < x.value) : x.value = fmt.magnitude x.word := by
  rw [← abs_value, abs_of_pos h]

theorem value_eq_zero_iff (x : BinaryFloat fmt) : x.value = 0 ↔ x.word = 0 := by
  rw [← abs_eq_zero, abs_value, ← fmt.magnitude_zero, fmt.magnitude_injective.eq_iff]

/-- With their sign, values tell encodings apart. -/
theorem eq_of_value_eq {x y : BinaryFloat fmt} (hs : x.sign = y.sign) (h : x.value = y.value) : x = y :=
  ext_word hs (fmt.magnitude_injective (by rw [← abs_value, ← abs_value, h]))

/-! ## The overflow bound -/

theorem greatestFinite_word : (greatestFinite : BinaryFloat fmt).word = fmt.infinityWord - 1 := by
  have := fmt.infinityWord_lt_signWeight
  exact Nat.mod_eq_of_lt (by omega)

theorem value_greatestFinite :
    (greatestFinite : BinaryFloat fmt).value = fmt.magnitude (fmt.infinityWord - 1) := by
  rw [value_of_sign_eq_false rfl, greatestFinite_word]

/-- No finite number is larger than the greatest one. -/
theorem abs_value_le_greatestFinite {x : BinaryFloat fmt} (hx : x.isFinite = true) :
    |x.value| ≤ (greatestFinite : BinaryFloat fmt).value := by
  rw [isFinite_iff] at hx
  rw [abs_value, value_greatestFinite, fmt.magnitude_le_iff]
  omega

/-- The finite values end below the power of two after the greatest binade. -/
theorem abs_value_lt {x : BinaryFloat fmt} (hx : x.isFinite = true) :
    |x.value| < 2 ^ (fmt.maxLead + 1) := by
  rw [abs_value, ← fmt.magnitude_infinityWord, fmt.magnitude_lt_iff]
  exact (isFinite_iff x).1 hx

/-- The overflow threshold is the midpoint with the number that would follow the greatest one. -/
theorem overflowBound_eq : fmt.overflowBound = fmt.midpoint (fmt.infinityWord - 1) := by
  have h : fmt.infinityWord - 1 + 1 = fmt.infinityWord := Nat.sub_add_cancel fmt.infinityWord_pos
  unfold FloatFormat.overflowBound FloatFormat.midpoint
  rw [value_greatestFinite, h, fmt.magnitude_infinityWord]

theorem magnitude_lt_overflowBound {w : Nat} (hw : w < fmt.infinityWord) :
    fmt.magnitude w < fmt.overflowBound := by
  rw [overflowBound_eq]
  exact (fmt.magnitude_le_iff.2 (by omega)).trans_lt (fmt.magnitude_lt_midpoint _)

/-! ## Floats of the nearest word -/

/-- `v` has the sign of `x`, or is zero. -/
def SignAgrees (v : ℚ) (x : BinaryFloat fmt) : Prop := if x.sign then v ≤ 0 else 0 ≤ v

/-- For a value of the same sign the distance is that of the magnitudes. -/
theorem dist_of_signAgrees {v : ℚ} {x : BinaryFloat fmt} (h : SignAgrees v x) :
    |x.value - v| = |fmt.magnitude x.word - (|v|)| := by
  unfold SignAgrees at h
  unfold value
  split at h
  · rw [if_pos ‹_›, abs_of_nonpos h, ← abs_neg]
    congr 1
    ring
  · rw [if_neg ‹_›, abs_of_nonneg h, one_mul]

/-- The other sign only moves a value further away. -/
theorem dist_le_dist (y : BinaryFloat fmt) (v : ℚ) :
    |fmt.magnitude y.word - (|v|)| ≤ |y.value - v| := by
  rw [← abs_value]
  exact abs_abs_sub_abs_le_abs_sub y.value v

/-- Opposite floats that are not zero are as far only from zero. -/
theorem eq_zero_of_opposite {v : ℚ} {x y : BinaryFloat fmt} (hword : y.word = x.word)
    (hne : y.value ≠ x.value) (heq : |x.value - v| = |y.value - v|) : v = 0 := by
  have hopp : y.value = -x.value := by
    have := (abs_eq_abs (a := y.value) (b := x.value)).1 (by rw [abs_value, abs_value, hword])
    exact this.resolve_left hne
  have hx : x.value ≠ 0 := fun h0 => hne (by rw [hopp, h0, neg_zero])
  rw [hopp] at heq
  rcases abs_eq_abs.1 heq with h1 | h1
  · exact absurd (by linarith : x.value = 0) hx
  · linarith

/-- Rounding the magnitude and keeping the sign gives a nearest value. -/
theorem isNearest_of_roundsTo {v : ℚ} {x : BinaryFloat fmt} (h : fmt.RoundsTo |v| x.word)
    (hs : SignAgrees v x) : IsNearest v x := by
  obtain ⟨w, h, hw⟩ := h
  have hinf : x.isInfinite = true ↔ fmt.overflowBound ≤ |v| := by
    rw [isInfinite_iff_word, hw, overflowBound_eq,
      ← h.le_iff fmt.infinityWord_even fmt.infinityWord_pos]
    omega
  have hfinite : x.isFinite = true → x.word = w := by
    rw [isFinite_iff]
    omega
  refine ⟨(isNaN_eq_false_iff x).2 (by omega), hinf, ?_, ?_,
    ?_⟩
  · intro hx
    have hbound := hinf.1 hx
    rw [overflowBound_eq] at hbound
    have hpos : 0 < |v| :=
      (fmt.magnitude_nonneg _).trans_lt ((fmt.magnitude_lt_midpoint _).trans_le hbound)
    have hv := abs_pos.1 hpos
    unfold SignAgrees at hs
    split at hs
    · simpa [*] using lt_of_le_of_ne hs hv
    · simp [*]
  · intro y hx hy
    rw [dist_of_signAgrees hs, hfinite hx]
    by_cases hu : y.word = w
    · rw [← hu]
      exact dist_le_dist y v
    · exact (h.dist_le hu).1.trans (dist_le_dist y v)
  · intro y hx hy hne heq
    rw [hfinite hx]
    by_cases hu : y.word = w
    · -- only the other zero could be as near, and then `v` is zero, whose word is even
      have hv := eq_zero_of_opposite (hu.trans (hfinite hx).symm) hne heq
      rw [hv, abs_zero] at h
      by_contra hodd
      rcases h.lower (by omega) with hlt | ⟨-, h2⟩
      · have := fmt.magnitude_lt_midpoint (w - 1)
        have := fmt.magnitude_nonneg (w - 1)
        linarith
      · exact hodd h2
    · refine (h.dist_le hu).2 (le_antisymm (h.dist_le hu).1 ?_)
      rw [dist_of_signAgrees hs, hfinite hx] at heq
      rw [heq]
      exact dist_le_dist y v

theorem roundsTo_zero (sign : Bool) : fmt.RoundsTo 0 (zero sign : BinaryFloat fmt).word := by
  have h := @FloatFormat.RoundsTo.of_magnitude fmt 0
  rwa [fmt.magnitude_zero, Nat.zero_min] at h

/-- Zero is rounded to either zero. -/
theorem isNearest_zero (sign : Bool) : IsNearest 0 (zero sign : BinaryFloat fmt) := by
  refine isNearest_of_roundsTo ?_ ?_
  · rw [abs_zero]
    exact roundsTo_zero sign
  · unfold SignAgrees
    split <;> exact le_rfl

/-! ## The nearest float has the nearest word -/

theorem word_ofWord {s : Bool} {u : Nat} (hu : u ≤ fmt.infinityWord) :
    (ofWord s u : BinaryFloat fmt).word = u :=
  Nat.mod_eq_of_lt (Nat.lt_of_le_of_lt hu fmt.infinityWord_lt_signWeight)

theorem value_ofWord_false {u : Nat} (hu : u < fmt.infinityWord) :
    (ofWord false u : BinaryFloat fmt).value = fmt.magnitude u := by
  rw [value_of_sign_eq_false rfl, word_ofWord hu.le]

theorem isFinite_ofWord {s : Bool} {u : Nat} (hu : u < fmt.infinityWord) :
    (ofWord s u : BinaryFloat fmt).isFinite = true := by
  rw [isFinite_iff, word_ofWord hu.le]
  exact hu

theorem isFinite_greatestFinite : (greatestFinite : BinaryFloat fmt).isFinite = true :=
  isFinite_ofWord (Nat.sub_lt fmt.infinityWord_pos Nat.one_pos)

/-- A positive finite float that is nearest to a number has the nearest word. -/
theorem IsNearest.isNearestWord {v : ℚ} {x : BinaryFloat fmt} (h : IsNearest v x)
    (hx : x.isFinite = true) (hs : x.sign = false) (hv : 0 ≤ v) : fmt.IsNearestWord v x.word := by
  have hfin := (isFinite_iff x).1 hx
  have hvalue := value_of_sign_eq_false hs
  -- what being nearest says of the float of any other word
  have hnear : ∀ u < fmt.infinityWord, |fmt.magnitude x.word - v| ≤ |fmt.magnitude u - v| := by
    intro u hu
    have := h.nearest (ofWord false u) hx (isFinite_ofWord hu)
    rwa [hvalue, value_ofWord_false hu] at this
  have htie : ∀ u < fmt.infinityWord, u ≠ x.word →
      |fmt.magnitude x.word - v| = |fmt.magnitude u - v| → x.word % 2 = 0 := by
    intro u hu hne heq
    refine h.even_of_tie (ofWord false u) hx (isFinite_ofWord hu) ?_ ?_
    · rw [hvalue, value_ofWord_false hu]
      intro he
      exact hne (fmt.magnitude_injective he)
    · rw [hvalue, value_ofWord_false hu, heq]
  -- beyond the last finite word the number would be read as infinite
  have hlast : fmt.midpoint x.word ≤ v → x.word + 1 < fmt.infinityWord := by
    intro hmid
    by_contra hlast
    have hinf : x.isInfinite = true := by
      rw [h.isInfinite_iff, overflowBound_eq, abs_of_nonneg hv,
        show fmt.infinityWord - 1 = x.word by omega]
      exact hmid
    have := (isInfinite_iff_word x).1 hinf
    omega
  constructor
  · intro hpos
    obtain ⟨u, hu⟩ : ∃ u, x.word = u + 1 := Nat.exists_eq_add_of_le' hpos
    rw [hu] at hnear htie ⊢
    have hle : fmt.midpoint u ≤ v := FloatFormat.dist_succ_le_iff.1 (hnear u (by omega))
    rcases hle.lt_or_eq with hlt | heq
    · exact Or.inl hlt
    · have hdist := le_antisymm (hnear u (by omega)) (FloatFormat.dist_le_succ_iff.2 heq.ge)
      exact Or.inr ⟨heq, htie u (by omega) (by omega) hdist⟩
  · have hle : v ≤ fmt.midpoint x.word := by
      by_contra hlt
      exact hlt (FloatFormat.dist_le_succ_iff.1 (hnear _ (hlast (not_le.1 hlt).le)))
    rcases hle.lt_or_eq with hlt | heq
    · exact Or.inl hlt
    · have hdist := le_antisymm (hnear _ (hlast heq.ge)) (FloatFormat.dist_succ_le_iff.2 heq.ge)
      exact Or.inr ⟨heq, htie _ (hlast heq.ge) (by omega) hdist⟩

end BinaryFloat

end MachineNumbers
