import Mathlib
import MachineNumbers.BinaryFloat.Neighbour
import MachineNumbers.Proofs.Kinds

/-!
# Neighbours and what is nearest to a float

The number above what is read as a zero has the least word of the mode, that above a negative number the word
before, or zero where the mode leaves that out, and that above a positive number the next word
(`nextUp_of_readsAsZero`, `nextUp_of_sign`, `nextUp_of_positive`).  The neighbours of a positive number have
the next word and the one before (`nextUp_value`, `nextDown_value`), so the numbers half way to them are the
midpoints of words.  A real number that a positive float is nearest to lies between these midpoints
(`IsNearestReal.midpoint_le`, `IsNearestReal.le_midpoint`).
-/

namespace MachineNumbers

/-- The least word that is not read as a zero. -/
def FloatFormat.leastWord (fmt : FloatFormat) (mode : SubnormalMode) : ℕ :=
  match mode with
  | .gradual => 1
  | .flushToZero => fmt.hiddenBit

namespace BinaryFloat

variable {fmt : FloatFormat} {mode : SubnormalMode} {x : BinaryFloat fmt} {v : ℝ}

/-! ## Steps -/

theorem leastWord_pos (fmt : FloatFormat) (mode : SubnormalMode) : 0 < fmt.leastWord mode := by
  cases mode with
  | gradual => exact Nat.one_pos
  | flushToZero => exact fmt.hiddenBit_pos

theorem leastWord_le_infinityWord (fmt : FloatFormat) (mode : SubnormalMode) :
    fmt.leastWord mode ≤ fmt.infinityWord := by
  cases mode with
  | gradual => exact fmt.infinityWord_pos
  | flushToZero => exact hiddenBit_le_infinityWord fmt

theorem readsAsZero_iff_word (mode : SubnormalMode) (x : BinaryFloat fmt) :
    x.readsAsZero mode = true ↔ x.word < fmt.leastWord mode := by
  have hpos := fmt.hiddenBit_pos
  cases mode with
  | gradual => simp [readsAsZero_gradual, isZero, FloatFormat.leastWord]
  | flushToZero =>
    simp only [readsAsZero, isZero, Bool.or_eq_true, beq_self_eq_true, Bool.true_and, beq_iff_eq,
      isSubnormal_iff, FloatFormat.leastWord]
    omega

/-- Above what is read as a zero lies the least word of the mode. -/
theorem nextUp_of_readsAsZero (hx : x.isNaN = false) (hread : x.readsAsZero mode = true) :
    x.nextUp mode = ofWord false (fmt.leastWord mode) := by
  unfold nextUp
  rw [hx, hread]
  cases mode <;> rfl

/-- Below the least word of the mode a negative number steps to zero. -/
theorem nextUp_of_sign (hx : x.isNaN = false) (hread : x.readsAsZero mode = false) (hs : x.sign = true) :
    x.nextUp mode = if x.word = fmt.leastWord mode then zero true else ofWord true (x.word - 1) := by
  have hle : fmt.leastWord mode ≤ x.word := not_lt.1 fun hlt =>
    Bool.false_ne_true (hread.symm.trans ((readsAsZero_iff_word mode x).2 hlt))
  have hword : (ofWord true (x.word - 1) : BinaryFloat fmt).word = x.word - 1 :=
    word_ofWord ((Nat.sub_le ..).trans ((isNaN_eq_false_iff x).1 hx))
  have htwo := fmt.two_le_hiddenBit
  unfold nextUp
  simp only [hx, hread, hs, Bool.false_eq_true, if_false, if_true, isSubnormal_iff, hword]
  split_ifs with hgap heq heq
  · rfl
  · obtain ⟨rfl, hgap⟩ := hgap
    simp only [FloatFormat.leastWord] at hle heq
    omega
  · cases mode with
    | gradual => exact ext_word rfl (hword.trans (by rw [heq]; rfl))
    | flushToZero =>
      simp only [FloatFormat.leastWord] at heq
      exact absurd ⟨rfl, by omega⟩ hgap
  · rfl

theorem nextUp_of_positive (hx : x.isFinite = true) (hread : x.readsAsZero mode = false)
    (hs : x.sign = false) : x.nextUp mode = ofWord false (x.word + 1) := by
  simp [nextUp, isNaN_of_isFinite hx, hread, hs, isInfinite_of_isFinite hx]

/-! ## Neighbours of a positive number -/

theorem nextUp_eq (hs : x.sign = false) (h0 : x.isZero = false) (hx : x.isFinite = true) :
    x.nextUp .gradual = ofWord false (x.word + 1) :=
  nextUp_of_positive hx ((readsAsZero_gradual x).trans h0) hs

theorem nextDown_eq (hs : x.sign = false) (h0 : x.isZero = false) (hx : x.isFinite = true) :
    x.nextDown .gradual = ofWord false (x.word - 1) := by
  have hnan : (-x).isNaN = false := isNaN_of_isFinite hx
  have hsign : (-x).sign = true := by
    show (!x.sign) = true
    rw [hs, Bool.not_false]
  have hzero : (-x).readsAsZero .gradual = false := (readsAsZero_gradual (-x)).trans h0
  have hup : (-x).nextUp .gradual = ofWord true (x.word - 1) := by
    simp only [nextUp, hnan, hzero, hsign, Bool.false_eq_true, if_false, if_true, reduceCtorEq, false_and]
    rfl
  rw [nextDown, hup]
  rfl

theorem nextUp_value (hs : x.sign = false) (h0 : x.isZero = false)
    (hx : x.word + 1 < fmt.infinityWord) : (x.nextUp .gradual).isFinite = true ∧
      (x.nextUp .gradual).value = fmt.magnitude (x.word + 1) := by
  rw [nextUp_eq hs h0 ((isFinite_iff x).2 (by omega))]
  exact ⟨isFinite_ofWord hx, value_ofWord_false hx⟩

theorem nextDown_value (hs : x.sign = false) (h0 : x.isZero = false) (hx : x.isFinite = true) :
    (x.nextDown .gradual).isFinite = true ∧
      (x.nextDown .gradual).value = fmt.magnitude (x.word - 1) := by
  have hword := (isFinite_iff x).1 hx
  have hlt : x.word - 1 < fmt.infinityWord := by omega
  rw [nextDown_eq hs h0 hx]
  exact ⟨isFinite_ofWord hlt, value_ofWord_false hlt⟩

/-! ## Between the midpoints -/

/-- A number no farther from the lesser of two lies below their midpoint. -/
theorem le_midpoint_of_dist_le {a b : ℝ} (hab : a < b) (h : |a - v| ≤ |b - v|) : v ≤ (a + b) / 2 := by
  by_contra hlt
  have hnear : |b - v| < v - a := abs_lt.2 ⟨by linarith, by linarith⟩
  have hfar := neg_le_abs (a - v)
  linarith

/-- A number no farther from the greater of two lies above their midpoint. -/
theorem midpoint_le_of_dist_le {a b : ℝ} (hab : a < b) (h : |b - v| ≤ |a - v|) : (a + b) / 2 ≤ v := by
  by_contra hlt
  have hnear : |a - v| < b - v := abs_lt.2 ⟨by linarith, by linarith⟩
  have hfar := le_abs_self (b - v)
  linarith

namespace IsNearestReal

/-- A positive finite float is as near as the float of any other word. -/
theorem dist_le (h : IsNearestReal v x) (hs : x.sign = false) (hx : x.isFinite = true) {w : ℕ}
    (hw : w < fmt.infinityWord) :
    |(fmt.magnitude x.word : ℝ) - v| ≤ |(fmt.magnitude w : ℝ) - v| := by
  have hnear := h.nearest (ofWord false w) hx (isFinite_ofWord hw)
  rwa [value_of_sign_eq_false hs, value_ofWord_false hw] at hnear

theorem le_midpoint (h : IsNearestReal v x) (hs : x.sign = false)
    (hx : x.word + 1 < fmt.infinityWord) : v ≤ fmt.midpoint x.word := by
  have hlt : (fmt.magnitude x.word : ℝ) < fmt.magnitude (x.word + 1) := by
    exact_mod_cast fmt.magnitude_lt_iff.2 (Nat.lt_succ_self x.word)
  have hmid := le_midpoint_of_dist_le hlt (h.dist_le hs ((isFinite_iff x).2 (by omega)) hx)
  unfold FloatFormat.midpoint
  push_cast
  exact hmid

theorem midpoint_le (h : IsNearestReal v x) (hs : x.sign = false) (hx : x.isFinite = true)
    (h0 : 0 < x.word) : fmt.midpoint (x.word - 1) ≤ v := by
  have hword := (isFinite_iff x).1 hx
  have hlt : (fmt.magnitude (x.word - 1) : ℝ) < fmt.magnitude x.word := by
    exact_mod_cast fmt.magnitude_lt_iff.2 (Nat.sub_lt h0 Nat.one_pos)
  have hmid := midpoint_le_of_dist_le hlt (h.dist_le hs hx (w := x.word - 1) (by omega))
  unfold FloatFormat.midpoint
  rw [Nat.sub_add_cancel h0]
  push_cast
  exact hmid

/-- What is nearest to a number lies on the same side of a magnitude, or is that. -/
theorem word_le (h : IsNearestReal v x) (hs : x.sign = false) (hx : x.isFinite = true) {w : ℕ}
    (hw : w < fmt.infinityWord) (hv : v < fmt.magnitude w) : x.word ≤ w := by
  by_contra hlt
  have hlt : (fmt.magnitude w : ℝ) < fmt.magnitude x.word := by
    exact_mod_cast fmt.magnitude_lt_iff.2 (not_le.1 hlt)
  have hmid := midpoint_le_of_dist_le hlt (h.dist_le hs hx hw)
  linarith

theorem le_word (h : IsNearestReal v x) (hs : x.sign = false) (hx : x.isFinite = true) {w : ℕ}
    (hw : w < fmt.infinityWord) (hv : fmt.magnitude w ≤ v) : w ≤ x.word := by
  by_contra hlt
  have hlt : (fmt.magnitude x.word : ℝ) < fmt.magnitude w := by
    exact_mod_cast fmt.magnitude_lt_iff.2 (not_le.1 hlt)
  have hmid := le_midpoint_of_dist_le hlt (h.dist_le hs hx hw)
  linarith

end IsNearestReal

end BinaryFloat

end MachineNumbers
