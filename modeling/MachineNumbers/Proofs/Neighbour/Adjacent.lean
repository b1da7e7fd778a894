import Mathlib
import MachineNumbers.Proofs.Canonical
import MachineNumbers.Proofs.Order

/-!
# Neighbours are adjacent

`BinaryFloat.IsSuccessor mode x y` says that `y` is the least number above `x` that arithmetic in the mode can
produce, and `IsPredecessor` is its mirror image.  A mode leaves out the words below its least one
(`FloatFormat.leastWord`), so the numbers it can produce have signed words that are zero or at least as far
from zero as that, and `nextUp` goes from one of them to the next (`signedWord_nextUp`): from zero over the gap
above it, up to zero over the gap below, and by one anywhere else.  The opposite of a step up from the opposite
number is a step down, so what `nextUp` does says what `nextDown` does (`IsSuccessor.neg`), and the one undoes
the other (`stepDown_stepUp`).  Steps up lead to every greater number (`exists_iterate_nextUp`).
-/

namespace MachineNumbers

/-! ## Steps of signed words -/

/-- The next integer that is zero or at least `least` away from it. -/
def stepUp (least : ℕ) (s : ℤ) : ℤ :=
  if s = 0 then least else if s = -least then 0 else s + 1

section

variable {least : ℕ} {s t : ℤ}

theorem lt_stepUp (hleast : 0 < least) : s < stepUp least s := by
  unfold stepUp
  split_ifs <;> omega

/-- A step goes no further than the next number that the mode has. -/
theorem stepUp_le (ht : t = 0 ∨ least ≤ t.natAbs) (hst : s < t) : stepUp least s ≤ t := by
  unfold stepUp
  split_ifs <;> omega

/-- A step down, the mirror image of a step up, undoes it. -/
theorem stepDown_stepUp (hleast : 0 < least) (hs : s = 0 ∨ least ≤ s.natAbs) :
    -stepUp least (-stepUp least s) = s := by
  unfold stepUp
  split_ifs <;> omega

end

namespace BinaryFloat

variable {fmt : FloatFormat} {mode : SubnormalMode} {x y z : BinaryFloat fmt}

def asRead (mode : SubnormalMode) (x : BinaryFloat fmt) : BinaryFloat fmt :=
  if x.readsAsZero mode then zero x.sign else x

/-- `y` is the least number above `x` that arithmetic in the mode can produce. -/
structure IsSuccessor (mode : SubnormalMode) (x y : BinaryFloat fmt) : Prop where
  not_isNaN : y.isNaN = false
  isCanonical : y.isCanonical mode = true
  isLess : x.isLess y = true
  not_between : ∀ z : BinaryFloat fmt, z.isNaN = false → z.isCanonical mode = true →
    ¬(x.isLess z = true ∧ z.isLess y = true)

/-- `y` is the greatest number below `x` that arithmetic in the mode can produce. -/
structure IsPredecessor (mode : SubnormalMode) (x y : BinaryFloat fmt) : Prop where
  not_isNaN : y.isNaN = false
  isCanonical : y.isCanonical mode = true
  isLess : y.isLess x = true
  not_between : ∀ z : BinaryFloat fmt, z.isNaN = false → z.isCanonical mode = true →
    ¬(y.isLess z = true ∧ z.isLess x = true)

/-! ## Words of a mode -/

/-- Canonical encodings are zero and those from the least nonzero one of the mode on. -/
theorem isCanonical_iff_word (mode : SubnormalMode) (x : BinaryFloat fmt) :
    x.isCanonical mode = true ↔ x.word = 0 ∨ fmt.leastWord mode ≤ x.word := by
  cases mode with
  | gradual =>
    simp only [isCanonical, beq_self_eq_true, Bool.true_or, FloatFormat.leastWord, true_iff]
    omega
  | flushToZero => simp [isCanonical, isSubnormal_eq_false_iff, FloatFormat.leastWord]

theorem natAbs_signedWord (x : BinaryFloat fmt) : x.signedWord.natAbs = x.word := by
  unfold signedWord
  split <;> omega

theorem isCanonical_iff_signedWord (mode : SubnormalMode) (x : BinaryFloat fmt) :
    x.isCanonical mode = true ↔ x.signedWord = 0 ∨ fmt.leastWord mode ≤ x.signedWord.natAbs := by
  rw [isCanonical_iff_word, natAbs_signedWord, ← natAbs_signedWord, Int.natAbs_eq_zero]

/-! ## What is read -/

theorem isNaN_asRead (h : x.isNaN = false) : (x.asRead mode).isNaN = false := by
  unfold asRead
  split
  · exact isNaN_zero _
  · exact h

theorem isCanonical_asRead (mode : SubnormalMode) (x : BinaryFloat fmt) :
    (x.asRead mode).isCanonical mode = true := by
  rw [isCanonical_iff_word]
  unfold asRead
  split
  · exact Or.inl rfl
  · next h => exact Or.inr (not_lt.1 (mt (readsAsZero_iff_word mode x).2 h))

/-- An operand below the least one of the mode counts as zero. -/
theorem signedWord_asRead (mode : SubnormalMode) (x : BinaryFloat fmt) :
    (x.asRead mode).signedWord = if x.word < fmt.leastWord mode then 0 else x.signedWord := by
  unfold asRead
  simp only [readsAsZero_iff_word]
  split
  · exact (signedWord_eq_zero_iff _).2 rfl
  · rfl

/-- What the mode can produce is read as it is. -/
theorem signedWord_asRead_of_isCanonical (h : x.isCanonical mode = true) :
    (x.asRead mode).signedWord = x.signedWord := by
  have hword := (isCanonical_iff_word mode x).1 h
  have habs := natAbs_signedWord x
  rw [signedWord_asRead]
  split <;> omega

theorem asRead_neg (mode : SubnormalMode) (x : BinaryFloat fmt) : (-x).asRead mode = -(x.asRead mode) := by
  have hread : (-x).readsAsZero mode = x.readsAsZero mode := rfl
  unfold asRead
  rw [hread]
  split <;> rfl

/-! ## Mirror images -/

theorem signedWord_neg (x : BinaryFloat fmt) : (-x).signedWord = -x.signedWord := by
  show (if (!x.sign) = true then -(x.word : ℤ) else x.word) = -(if x.sign = true then -(x.word : ℤ) else x.word)
  cases x.sign <;> simp

theorem neg_neg_eq (x : BinaryFloat fmt) : -(-x) = x := negated_negated x

theorem isLess_neg (x y : BinaryFloat fmt) : (-x).isLess (-y) = y.isLess x := by
  have hcompare : compare (-x.signedWord) (-y.signedWord) = compare y.signedWord x.signedWord :=
    compare_congr neg_lt_neg_iff neg_lt_neg_iff
  have hx : (-x).isNaN = x.isNaN := rfl
  have hy : (-y).isNaN = y.isNaN := rfl
  unfold isLess
  rw [compare?_eq_signedWord, compare?_eq_signedWord, signedWord_neg, signedWord_neg, hcompare, hx, hy,
    Bool.or_comm]

theorem equals_neg (x y : BinaryFloat fmt) : (-x).equals (-y) = x.equals y := by
  have hneg : -x = -y ↔ x = y := ⟨fun h => by rw [← neg_neg_eq x, h, neg_neg_eq], congrArg _⟩
  have hbeq : (-x == -y) = (x == y) := by rw [Bool.eq_iff_iff, beq_iff_eq, beq_iff_eq, hneg]
  unfold equals
  rw [hbeq]
  rfl

/-- Negation turns what follows into what comes before. -/
theorem IsSuccessor.neg (h : IsSuccessor mode x y) : IsPredecessor mode (-x) (-y) where
  not_isNaN := h.not_isNaN
  isCanonical := h.isCanonical
  isLess := (isLess_neg y x).trans h.isLess
  not_between z hz hcanonical hbetween := by
    rw [← neg_neg_eq z, isLess_neg, isLess_neg] at hbetween
    exact h.not_between (-z) hz hcanonical hbetween.symm

/-! ## Steps of floats -/

theorem isLess_iff (hx : x.isNaN = false) (hy : y.isNaN = false) :
    x.isLess y = true ↔ x.signedWord < y.signedWord := by
  unfold isLess
  rw [beq_iff_eq, compare?_eq_some_iff hx hy, compare_lt_iff_lt]

theorem equals_iff_signedWord (hx : x.isNaN = false) (hy : y.isNaN = false) :
    x.equals y = true ↔ x.signedWord = y.signedWord := by
  rw [equals_iff, compare?_eq_some_iff hx hy, compare_eq_iff_eq]

theorem signedWord_ofWord {sign : Bool} {word : ℕ} (h : word ≤ fmt.infinityWord) :
    (ofWord sign word : BinaryFloat fmt).signedWord = if sign then -(word : ℤ) else word := by
  unfold signedWord
  rw [word_ofWord h]
  rfl

theorem isCanonical_nextUp (mode : SubnormalMode) (x : BinaryFloat fmt) :
    (x.nextUp mode).isCanonical mode = true := by
  cases mode with
  | gradual => rfl
  | flushToZero => simp [isCanonical, isSubnormal_nextUp]

/-- The number above is a step up from what is read. -/
theorem signedWord_nextUp (mode : SubnormalMode) (hx : x.isNaN = false) (hinfinity : x ≠ infinity false) :
    (x.nextUp mode).signedWord = stepUp (fmt.leastWord mode) (x.asRead mode).signedWord := by
  have hword := (isNaN_eq_false_iff x).1 hx
  have hpos := leastWord_pos fmt mode
  rw [signedWord_asRead]
  cases hread : x.readsAsZero mode with
  | true =>
    have hlt := (readsAsZero_iff_word mode x).1 hread
    rw [nextUp_of_readsAsZero hx hread, signedWord_ofWord (leastWord_le_infinityWord fmt mode), if_pos hlt]
    simp [stepUp]
  | false =>
  have hle : ¬x.word < fmt.leastWord mode := fun hlt =>
    Bool.false_ne_true (hread.symm.trans ((readsAsZero_iff_word mode x).2 hlt))
  rw [if_neg hle]
  cases hs : x.sign with
  | true =>
    have hsigned : x.signedWord = -x.word := by simp [signedWord, hs]
    rw [nextUp_of_sign hx hread hs, hsigned, stepUp]
    split
    · next heq =>
      rw [(signedWord_eq_zero_iff _).2 rfl, if_neg (by omega), if_pos (by omega)]
    · next hne =>
      rw [signedWord_ofWord (by omega), if_pos rfl, if_neg (by omega), if_neg (by omega)]
      omega
  | false =>
    have hsigned : x.signedWord = x.word := by simp [signedWord, hs]
    have hfinite : x.isFinite = true := isFinite_of_not hx (Bool.eq_false_iff.2 fun hi =>
      hinfinity (hs ▸ eq_infinity_of_isInfinite hi))
    have hlt := (isFinite_iff x).1 hfinite
    rw [nextUp_of_positive hfinite hread hs, signedWord_ofWord (by omega), hsigned, stepUp,
      if_neg Bool.false_ne_true, if_neg (by omega), if_neg (by omega), Nat.cast_add_one]

theorem nextUp_infinity (mode : SubnormalMode) :
    (infinity false : BinaryFloat fmt).nextUp mode = infinity false := by
  have hinfinite : (infinity false : BinaryFloat fmt).isInfinite = true := isInfinite_infinity false
  have hsign : (infinity false : BinaryFloat fmt).sign = false := rfl
  have hread : (infinity false : BinaryFloat fmt).readsAsZero mode = false := by
    rw [← Bool.not_eq_true, readsAsZero_iff_word, (isInfinite_iff_word _).1 hinfinite, not_lt]
    exact leastWord_le_infinityWord fmt mode
  unfold nextUp
  simp [isNaN_of_isInfinite hinfinite, hread, hsign, hinfinite]

/-! ## Successors -/

/-- The number above is the successor. -/
theorem nextUp_isSuccessor (hx : x.isNaN = false) (hinfinity : x ≠ infinity false) :
    IsSuccessor mode (x.asRead mode) (x.nextUp mode) := by
  have hread : (x.asRead mode).isNaN = false := isNaN_asRead hx
  have hnext : (x.nextUp mode).isNaN = false := isNaN_nextUp mode hx
  have hstep := signedWord_nextUp mode hx hinfinity
  refine ⟨hnext, isCanonical_nextUp mode x, ?_, fun z hz hcanonical hbetween => ?_⟩
  · rw [isLess_iff hread hnext, hstep]
    exact lt_stepUp (leastWord_pos fmt mode)
  · rw [isLess_iff hread hz, isLess_iff hz hnext, hstep] at hbetween
    have hle := stepUp_le ((isCanonical_iff_signedWord mode z).1 hcanonical) hbetween.1
    exact absurd hbetween.2 (not_lt.2 hle)

theorem neg_infinity (sign : Bool) : -(infinity sign : BinaryFloat fmt) = infinity (!sign) := rfl

theorem neg_ne_infinity (hinfinity : x ≠ infinity true) : -x ≠ infinity false := fun h =>
  hinfinity (by rw [← neg_neg_eq x, h, neg_infinity, Bool.not_false])

/-- The number below is the predecessor. -/
theorem nextDown_isPredecessor (hx : x.isNaN = false) (hinfinity : x ≠ infinity true) :
    IsPredecessor mode (x.asRead mode) (x.nextDown mode) := by
  have hsuccessor : IsSuccessor mode (-(x.asRead mode)) ((-x).nextUp mode) := by
    rw [← asRead_neg]
    exact nextUp_isSuccessor hx (neg_ne_infinity hinfinity)
  have h := hsuccessor.neg
  rwa [neg_neg_eq] at h

/-- A step down is one up from the negated operand. -/
theorem signedWord_nextDown (hx : x.isNaN = false) (hinfinity : x ≠ infinity true) :
    (x.nextDown mode).signedWord = -stepUp (fmt.leastWord mode) (-(x.asRead mode).signedWord) := by
  have hneg : (-x).isNaN = false := hx
  rw [nextDown, signedWord_neg, signedWord_nextUp mode hneg (neg_ne_infinity hinfinity), asRead_neg,
    signedWord_neg]

theorem signedWord_infinity (sign : Bool) : (infinity sign : BinaryFloat fmt).signedWord =
    if sign then -(fmt.infinityWord : ℤ) else fmt.infinityWord :=
  signedWord_of_isInfinite (isInfinite_infinity sign)

theorem ne_infinity_of_signedWord_lt (hy : y.isNaN = false) (h : (x.asRead mode).signedWord < y.signedWord) :
    x ≠ infinity false := by
  rintro rfl
  have hle := abs_le.1 (abs_signedWord_le hy)
  have hcanonical : (infinity false : BinaryFloat fmt).isCanonical mode = true := by
    rw [isCanonical_iff_word, (isInfinite_iff_word _).1 (isInfinite_infinity false)]
    exact Or.inr (leastWord_le_infinityWord fmt mode)
  rw [signedWord_asRead_of_isCanonical hcanonical, signedWord_infinity, if_neg Bool.false_ne_true] at h
  omega

/-- A step down undoes a step up. -/
theorem nextDown_nextUp (hx : x.isNaN = false) (hinfinity : x ≠ infinity false) :
    ((x.nextUp mode).nextDown mode).equals (x.asRead mode) = true := by
  have hread : (x.asRead mode).isNaN = false := isNaN_asRead hx
  have hnext : (x.nextUp mode).isNaN = false := isNaN_nextUp mode hx
  have hpos := leastWord_pos fmt mode
  have hstep := signedWord_nextUp mode hx hinfinity
  have hne : x.nextUp mode ≠ infinity true := by
    intro h
    have hlow := abs_le.1 (abs_signedWord_le hread)
    have hlt := lt_stepUp (s := (x.asRead mode).signedWord) hpos
    rw [← hstep, h, signedWord_infinity, if_pos rfl] at hlt
    omega
  rw [equals_iff_signedWord (nextDown_isPredecessor hnext hne).not_isNaN hread, signedWord_nextDown hnext hne,
    signedWord_asRead_of_isCanonical (isCanonical_nextUp mode x), hstep]
  exact stepDown_stepUp hpos ((isCanonical_iff_signedWord mode _).1 (isCanonical_asRead mode x))

/-- A step up undoes a step down. -/
theorem nextUp_nextDown (hx : x.isNaN = false) (hinfinity : x ≠ infinity true) :
    ((x.nextDown mode).nextUp mode).equals (x.asRead mode) = true := by
  have hneg : (-x).isNaN = false := hx
  have h : (-((x.nextDown mode).nextUp mode)).equals (-(x.asRead mode)) = true := by
    rw [← asRead_neg]
    exact nextDown_nextUp hneg (neg_ne_infinity hinfinity)
  rwa [equals_neg] at h

/-- Steps up lead to every greater number that the mode can produce. -/
theorem exists_iterate_nextUp (hx : x.isNaN = false) (hz : z.isNaN = false)
    (hcanonical : z.isCanonical mode = true) (hlt : (x.asRead mode).isLess z = true) :
    ∃ k : ℕ, ((nextUp mode)^[k + 1] x).equals z = true := by
  rw [isLess_iff (isNaN_asRead hx) hz] at hlt
  -- by induction on how far the signed word is from that of `z`, which every step reduces
  obtain ⟨n, hn⟩ : ∃ n : ℕ, z.signedWord - (x.asRead mode).signedWord ≤ n := ⟨_, Int.self_le_toNat _⟩
  induction n generalizing x with
  | zero => omega
  | succ n ih =>
    have hnext : (x.nextUp mode).isNaN = false := isNaN_nextUp mode hx
    have hstep := signedWord_nextUp mode hx (ne_infinity_of_signedWord_lt hz hlt)
    have hup := lt_stepUp (s := (x.asRead mode).signedWord) (leastWord_pos fmt mode)
    have hle := stepUp_le ((isCanonical_iff_signedWord mode z).1 hcanonical) hlt
    have hread := signedWord_asRead_of_isCanonical (isCanonical_nextUp mode x)
    rcases hle.eq_or_lt with heq | hless
    · exact ⟨0, (equals_iff_signedWord hnext hz).2 (hstep.trans heq)⟩
    · obtain ⟨k, hk⟩ := ih hnext (by omega) (by omega)
      exact ⟨k + 1, hk⟩

/-- Neighbours are adjacent: the number above any number but the greatest infinity is the least one greater
than what is read of it, and a step down leads back; the numbers below are the mirror image.  The infinities
are where the steps end, and on the way up no number is left out. -/
theorem neighbours_adjacent (mode : SubnormalMode) (x : BinaryFloat fmt) (hx : x.isNaN = false) :
    (x ≠ infinity false → IsSuccessor mode (x.asRead mode) (x.nextUp mode) ∧
      ((x.nextUp mode).nextDown mode).equals (x.asRead mode) = true) ∧
    (x = infinity false → x.nextUp mode = infinity false) ∧
    (x ≠ infinity true → IsPredecessor mode (x.asRead mode) (x.nextDown mode) ∧
      ((x.nextDown mode).nextUp mode).equals (x.asRead mode) = true) ∧
    (x = infinity true → x.nextDown mode = infinity true) ∧
    x.nextDown mode = -(-x).nextUp mode ∧
    ∀ z : BinaryFloat fmt, z.isNaN = false → z.isCanonical mode = true →
      (x.asRead mode).isLess z = true → ∃ k : ℕ, ((nextUp mode)^[k + 1] x).equals z = true := by
  refine ⟨fun hne => ⟨nextUp_isSuccessor hx hne, nextDown_nextUp hx hne⟩, ?_,
    fun hne => ⟨nextDown_isPredecessor hx hne, nextUp_nextDown hx hne⟩, ?_, rfl,
    fun z hz hcanonical hlt => exists_iterate_nextUp hx hz hcanonical hlt⟩
  · rintro rfl
    exact nextUp_infinity mode
  · rintro rfl
    rw [nextDown, neg_infinity, Bool.not_true, nextUp_infinity, neg_infinity, Bool.not_false]

/-- Flushing steps from the greatest negative normal number over all subnormal ones to the negative zero. -/
theorem neighbours_adjacent_gap :
    (-leastNormal : BinaryFloat .binary64).isNaN = false ∧
    (-leastNormal : BinaryFloat .binary64) ≠ infinity false ∧
    IsSuccessor .flushToZero (-leastNormal : BinaryFloat .binary64) (zero true) ∧
    ((zero true : BinaryFloat .binary64).nextDown .flushToZero).equals (-leastNormal) = true := by
  have hx : (-leastNormal : BinaryFloat .binary64).isNaN = false := by decide +kernel
  have hne : (-leastNormal : BinaryFloat .binary64) ≠ infinity false := by decide +kernel
  have hread : (-leastNormal : BinaryFloat .binary64).asRead .flushToZero = -leastNormal := by decide +kernel
  have hnext : (-leastNormal : BinaryFloat .binary64).nextUp .flushToZero = zero true := by decide +kernel
  have h := (neighbours_adjacent .flushToZero (-leastNormal : BinaryFloat .binary64) hx).1 hne
  rw [hread, hnext] at h
  exact ⟨hx, hne, h⟩

end BinaryFloat

end MachineNumbers
