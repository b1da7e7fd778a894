import Mathlib
import MachineNumbers.Proofs.Nearest

/-!
# The float nearest to a real number

`BinaryFloat.IsNearestReal v x` says of a real number what `IsNearest` says of a rational one, and on
rational numbers they are the same (`isNearestReal_cast_iff`).  Which float is nearest is decided by the
numbers half way between floats, and those are rational: what is nearest to all rationals around a number
is nearest to that number (`isNearestReal_of_around`).  So roundings need to be followed on rationals only.
-/

namespace MachineNumbers.BinaryFloat

variable {fmt : FloatFormat} {x : BinaryFloat fmt} {v : ℝ}

/-- `x` is the real number `v` rounded to nearest: the infinity of its sign from the overflow bound on,
and else the finite float nearest to it, whose word is even if another is as near. -/
structure IsNearestReal (v : ℝ) (x : BinaryFloat fmt) : Prop where
  not_isNaN : x.isNaN = false
  isInfinite_iff : x.isInfinite = true ↔ (fmt.overflowBound : ℝ) ≤ |v|
  sign_of_isInfinite : x.isInfinite = true → (x.sign = true ↔ v < 0)
  nearest : ∀ y : BinaryFloat fmt, x.isFinite = true → y.isFinite = true →
    |(x.value : ℝ) - v| ≤ |(y.value : ℝ) - v|
  even_of_tie : ∀ y : BinaryFloat fmt, x.isFinite = true → y.isFinite = true → y.value ≠ x.value →
    |(x.value : ℝ) - v| = |(y.value : ℝ) - v| → x.word % 2 = 0

theorem IsNearest.isNearestReal {q : ℚ} (h : IsNearest q x) : IsNearestReal (q : ℝ) x where
  not_isNaN := h.not_isNaN
  isInfinite_iff := by
    rw [h.isInfinite_iff]
    norm_cast
  sign_of_isInfinite hx := by
    rw [h.sign_of_isInfinite hx]
    norm_cast
  nearest y hx hy := by exact_mod_cast h.nearest y hx hy
  even_of_tie y hx hy hne heq := h.even_of_tie y hx hy hne (by exact_mod_cast heq)

theorem isNearestReal_cast_iff {q : ℚ} : IsNearestReal (q : ℝ) x ↔ IsNearest q x := by
  refine ⟨fun h => ⟨h.not_isNaN, ?_, fun hx => ?_, fun y hx hy => ?_, fun y hx hy hne heq => ?_⟩,
    IsNearest.isNearestReal⟩
  · rw [h.isInfinite_iff]
    norm_cast
  · rw [h.sign_of_isInfinite hx]
    norm_cast
  · exact_mod_cast h.nearest y hx hy
  · exact h.even_of_tie y hx hy hne (by exact_mod_cast heq)

theorem isNearestReal_zero (sign : Bool) : IsNearestReal 0 (zero sign : BinaryFloat fmt) := by
  rw [← Rat.cast_zero]
  exact (isNearest_zero sign).isNearestReal

/-! ## Rationals around a number -/

theorem exists_rat_mem {U : Set ℝ} (hU : IsOpen U) (hv : v ∈ U) : ∃ q : ℚ, (q : ℝ) ∈ U :=
  Rat.denseRange_cast.exists_mem_open hU ⟨v, hv⟩

/-- A number as far from one rational as from another is rational. -/
theorem eq_midpoint_of_dist_eq {a b : ℚ} (hne : b ≠ a) (h : |(a : ℝ) - v| = |(b : ℝ) - v|) :
    v = ((a + b) / 2 : ℚ) := by
  rcases abs_eq_abs.1 h with h | h
  · have : (a : ℝ) = b := by linarith
    exact absurd (by exact_mod_cast this.symm) hne
  · push_cast
    linarith

/-- What is nearest to all rationals around a number is nearest to that number. -/
theorem isNearestReal_of_around {S : Set ℝ} (hS : IsOpen S) (hv : v ∈ S)
    (h : ∀ q : ℚ, (q : ℝ) ∈ S → IsNearest q x) : IsNearestReal v x := by
  by_cases hrat : ∃ q : ℚ, (q : ℝ) = v
  · obtain ⟨q, rfl⟩ := hrat
    exact (h q hv).isNearestReal
  -- any open condition that `v` meets is met by a rational that `h` is about
  have around : ∀ {P : Set ℝ}, IsOpen P → v ∈ P → ∃ q : ℚ, (q : ℝ) ∈ P ∧ IsNearest q x := by
    intro P hP hvP
    obtain ⟨q, hqS, hqP⟩ := exists_rat_mem (hS.inter hP) ⟨hv, hvP⟩
    exact ⟨q, hqP, h q hqS⟩
  have hne : ∀ q : ℚ, v ≠ q := fun q hq => hrat ⟨q, hq.symm⟩
  refine ⟨?_, ⟨?_, ?_⟩, ?_, ?_, ?_⟩
  · obtain ⟨q, -, hq⟩ := around isOpen_univ (Set.mem_univ v)
    exact hq.not_isNaN
  · intro hx
    by_contra hlt
    obtain ⟨q, hqP, hq⟩ := around (isOpen_lt continuous_abs continuous_const) (not_le.1 hlt)
    have hle : (fmt.overflowBound : ℝ) ≤ |(q : ℝ)| := by exact_mod_cast hq.isInfinite_iff.1 hx
    exact absurd hqP (not_lt.2 hle)
  · intro hle
    have hlt : (fmt.overflowBound : ℝ) < |v| := by
      refine lt_of_le_of_ne hle fun heq => ?_
      rcases abs_choice v with habs | habs
      · exact hne fmt.overflowBound (by rw [heq, habs])
      · exact hne (-fmt.overflowBound) (by rw [Rat.cast_neg, heq, habs, neg_neg])
    obtain ⟨q, hqP, hq⟩ := around (isOpen_lt continuous_const continuous_abs) hlt
    have hle : (fmt.overflowBound : ℝ) ≤ |(q : ℝ)| := le_of_lt hqP
    exact hq.isInfinite_iff.2 (by exact_mod_cast hle)
  · intro hx
    constructor
    · intro hsign
      by_contra hpos
      have hpos : 0 < v := lt_of_le_of_ne (not_lt.1 hpos) fun h0 => hne 0 (by rw [← h0, Rat.cast_zero])
      obtain ⟨q, hqP, hq⟩ := around (isOpen_lt continuous_const continuous_id) hpos
      have hneg : (q : ℝ) < 0 := by exact_mod_cast (hq.sign_of_isInfinite hx).1 hsign
      exact absurd hqP (not_lt.2 hneg.le)
    · intro hneg
      obtain ⟨q, hqP, hq⟩ := around (isOpen_lt continuous_id continuous_const) hneg
      have hneg : (q : ℝ) < 0 := hqP
      exact (hq.sign_of_isInfinite hx).2 (by exact_mod_cast hneg)
  · intro y hx hy
    by_contra hlt
    have hopen : IsOpen {t : ℝ | |(y.value : ℝ) - t| < |(x.value : ℝ) - t|} :=
      isOpen_lt (by fun_prop) (by fun_prop)
    obtain ⟨q, hqP, hq⟩ := around hopen (not_le.1 hlt)
    have hle : |(x.value : ℝ) - q| ≤ |(y.value : ℝ) - q| := by exact_mod_cast hq.nearest y hx hy
    exact absurd hqP (not_lt.2 hle)
  · intro y hx hy hvalue heq
    exact absurd (eq_midpoint_of_dist_eq hvalue heq) (hne _)

end MachineNumbers.BinaryFloat
