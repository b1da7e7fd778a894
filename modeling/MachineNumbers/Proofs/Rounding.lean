import Mathlib
import MachineNumbers.BinaryFloat.Unpacked
import MachineNumbers.Proofs.Bits
import MachineNumbers.Proofs.Nearest

/-!
# Rounding gives the nearest float

`Unpacked.Holds x sticky m` says that the magnitude `m` is `x`, or exceeds it by less than one unit if
`sticky` is set.  Gradual `roundPack` finds the word that any such magnitude rounds to, as long as a set
`sticky` has bits to be discarded with (`roundPack_roundsTo`).  Numbers of the format are rounded to
themselves (`roundPack_exact`), and those are what `unpack` takes apart (`magnitude_unpack`).
-/

namespace MachineNumbers

/-- The magnitudes that an unpacked number and its sticky flag stand for. -/
def Unpacked.Holds (x : Unpacked) (sticky : Bool) (m : ℚ) : Prop :=
  if sticky then x.sig * 2 ^ x.exp < m ∧ m < (x.sig + 1) * 2 ^ x.exp else m = x.sig * 2 ^ x.exp

namespace Unpacked

variable {x : Unpacked} {sticky : Bool} {m : ℚ}

/-- Without a sticky bit a significand holds one number. -/
theorem holds_false : x.Holds false m ↔ m = x.sig * 2 ^ x.exp := by simp [Holds]

/-- With it, those strictly between that number and the next. -/
theorem holds_true :
    x.Holds true m ↔ x.sig * 2 ^ x.exp < m ∧ m < (x.sig + 1) * 2 ^ x.exp := by simp [Holds]

/-- What is held is never below the significand. -/
theorem Holds.le (h : x.Holds sticky m) : x.sig * 2 ^ x.exp ≤ m := by
  cases sticky
  · exact (holds_false.1 h).ge
  · exact (holds_true.1 h).1.le

theorem Holds.lt (h : x.Holds sticky m) : m < (x.sig + 1) * 2 ^ x.exp := by
  cases sticky
  · rw [holds_false.1 h]
    exact mul_lt_mul_of_pos_right (by linarith) (by positivity)
  · exact (holds_true.1 h).2

end Unpacked

namespace Unpacked

/-- A floored quotient holds the quotient, with a remainder as sticky. -/
theorem holds_div (sign : Bool) (exp : ℤ) (X : Nat) {Y : Nat} (hY : 0 < Y) :
    (⟨sign, exp, X / Y⟩ : Unpacked).Holds (X % Y != 0) ((X : ℚ) / Y * 2 ^ exp) := by
  have hYq : (0 : ℚ) < Y := by exact_mod_cast hY
  have hdiv : (X : ℚ) / Y = (X / Y : ℕ) + (X % Y : ℕ) / Y := by
    rw [eq_comm, ← mul_right_inj' hYq.ne', mul_add, mul_div_cancel₀ _ hYq.ne',
      mul_div_cancel₀ _ hYq.ne']
    exact_mod_cast Nat.div_add_mod X Y
  have hunit : (0 : ℚ) < 2 ^ exp := by positivity
  by_cases h0 : X % Y = 0
  · rw [h0, bne_self_eq_false, holds_false, hdiv, h0, Nat.cast_zero, zero_div, add_zero]
  · rw [bne_iff_ne.2 h0, holds_true, hdiv]
    have hpos : (0 : ℚ) < (X % Y : ℕ) / Y := by
      have : (0 : ℚ) < (X % Y : ℕ) := by exact_mod_cast Nat.pos_of_ne_zero h0
      positivity
    have hone : ((X % Y : ℕ) : ℚ) / Y < 1 := by
      rw [div_lt_one hYq]
      exact_mod_cast Nat.mod_lt X hY
    exact ⟨mul_lt_mul_of_pos_right (by linarith) hunit, mul_lt_mul_of_pos_right (by linarith) hunit⟩

/-- More bits than a format keeps: some are discarded. -/
theorem exp_lt_lastExp {fmt : FloatFormat} {x : Unpacked} (h : 2 ^ (fmt.fractionBits + 1) ≤ x.sig) :
    x.exp < fmt.lastExp x.leadExp := by
  have hpos := Nat.two_pow_pos (fmt.fractionBits + 1)
  have := (Nat.le_log2 (by omega)).2 h
  unfold FloatFormat.lastExp leadExp
  omega

end Unpacked

/-! ## Shifting with rounding -/

/-- The two cases for far shifts are no exception: the same significand is left, and rounded alike. -/
theorem shiftRightNearest_eq {sig shift : Nat} (hsig : sig < 2 ^ 128) (sticky : Bool) :
    shiftRightNearest sig shift sticky = sig / 2 ^ shift +
      (roundsUp (sig / 2 ^ shift) (sig % 2 ^ shift) (2 ^ (shift - 1)) sticky).toNat := by
  unfold shiftRightNearest
  split
  · next hfar =>
    have hhalf : 2 ^ 128 ≤ 2 ^ (shift - 1) := Nat.pow_le_pow_right (by decide) (by omega)
    have hlt : sig < 2 ^ shift :=
      hsig.trans_le (Nat.pow_le_pow_right (by decide) (by omega))
    rw [Nat.div_eq_of_lt hlt, Nat.mod_eq_of_lt hlt, roundsUp,
      beq_eq_false_iff_ne.2 (show sig ≠ 2 ^ (shift - 1) by omega),
      decide_eq_false (show ¬ 2 ^ (shift - 1) < sig by omega)]
    rfl
  · split
    · next h128 =>
      rw [h128, Nat.div_eq_of_lt hsig, Nat.mod_eq_of_lt hsig, Nat.zero_add]
      rfl
    · rw [Nat.shiftRight_eq_div_pow]
      rfl

namespace FloatFormat

variable {fmt : FloatFormat}

/-- No last place is below that of the subnormal numbers. -/
theorem minExp_le_lastExp (lead : ℤ) : fmt.minExp ≤ fmt.lastExp lead := le_max_right ..

/-- Rounding a significand of a binade up or not as its rest demands. -/
theorem isNearestWord_of_binade (up : Bool) {e k : Nat} {m : ℚ}
    (hlow : e = 0 ∨ fmt.hiddenBit ≤ k) (hhigh : k < 2 * fmt.hiddenBit)
    (hle : k * 2 ^ (fmt.minExp + e) ≤ m) (hlt : m < (k + 1) * 2 ^ (fmt.minExp + e))
    (hdown : up = false → m < (k + 1 / 2) * 2 ^ (fmt.minExp + e) ∨
      (m = (k + 1 / 2) * 2 ^ (fmt.minExp + e) ∧ k % 2 = 0))
    (hup : up = true → (k + 1 / 2) * 2 ^ (fmt.minExp + e) < m ∨
      (m = (k + 1 / 2) * 2 ^ (fmt.minExp + e) ∧ k % 2 = 1)) :
    fmt.IsNearestWord m (e * fmt.hiddenBit + (k + up.toNat)) := by
  have hpar : (e * fmt.hiddenBit) % 2 = 0 := by simp [Nat.mul_mod, fmt.hiddenBit_even]
  have hmag := fmt.magnitude_binade hlow hhigh.le
  have hmag1 : fmt.magnitude (e * fmt.hiddenBit + k + 1) = (k + 1) * 2 ^ (fmt.minExp + e) := by
    rw [Nat.add_assoc, fmt.magnitude_binade (by omega) (by omega)]
    push_cast
    ring
  have hmid := fmt.midpoint_binade hlow hhigh
  cases up with
  | false =>
    rw [Bool.toNat_false, Nat.add_zero]
    constructor
    · intro hpos
      have := fmt.midpoint_lt_magnitude (e * fmt.hiddenBit + k - 1)
      rw [Nat.sub_add_cancel hpos, hmag] at this
      exact Or.inl (this.trans_le hle)
    · rw [hmid]
      exact (hdown rfl).imp_right fun h => ⟨h.1, by omega⟩
  | true =>
    rw [Bool.toNat_true, ← Nat.add_assoc]
    constructor
    · intro _
      rw [Nat.add_sub_cancel, hmid]
      exact (hup rfl).imp_right fun h => ⟨h.1.symm, by omega⟩
    · have := fmt.magnitude_lt_midpoint (e * fmt.hiddenBit + k + 1)
      rw [hmag1] at this
      exact Or.inl (hlt.trans this)

end FloatFormat

/-! ## The rest decides -/

/-- Whether to round up is whether the number is beyond half way, or half way from an odd significand.
`m` is the number in units of the significand's last bit. -/
theorem roundsUp_spec {sig shift : Nat} {sticky : Bool} {m : ℚ} (hshift : 0 < shift)
    (h : (⟨false, 0, sig⟩ : Unpacked).Holds sticky m) :
    if roundsUp (sig / 2 ^ shift) (sig % 2 ^ shift) (2 ^ (shift - 1)) sticky then
      ((sig / 2 ^ shift : ℕ) + 1 / 2) * 2 ^ shift < m ∨
        (m = ((sig / 2 ^ shift : ℕ) + 1 / 2) * 2 ^ shift ∧ sig / 2 ^ shift % 2 = 1)
    else m < ((sig / 2 ^ shift : ℕ) + 1 / 2) * 2 ^ shift ∨
      (m = ((sig / 2 ^ shift : ℕ) + 1 / 2) * 2 ^ shift ∧ sig / 2 ^ shift % 2 = 0) := by
  set kept := sig / 2 ^ shift with hkept
  set rest := sig % 2 ^ shift with hrest
  set half := 2 ^ (shift - 1) with hhalf
  have hpow : (2 : ℚ) ^ shift = 2 * half := by
    rw [hhalf, Nat.cast_pow, Nat.cast_ofNat, ← pow_succ']
    congr 1
    omega
  have hsig : (sig : ℚ) = kept * 2 ^ shift + rest := by
    have := Nat.div_add_mod sig (2 ^ shift)
    rw [← hkept, ← hrest] at this
    rw [← this]
    push_cast
    ring
  have hmid : ((kept : ℚ) + 1 / 2) * 2 ^ shift = kept * 2 ^ shift + half := by
    rw [hpow]
    ring
  rw [hmid]
  have hle := h.le
  have hlt := h.lt
  simp only [zpow_zero, mul_one] at hle hlt
  unfold roundsUp
  rcases Nat.lt_trichotomy rest half with hr | hr | hr
  · have : (rest : ℚ) + 1 ≤ half := by exact_mod_cast hr
    simp only [show ¬ half < rest by omega, decide_false, Bool.false_or,
      beq_eq_false_iff_ne.2 (show rest ≠ half by omega), Bool.false_and, Bool.false_eq_true, if_false]
    exact Or.inl (by linarith)
  · have hq : (rest : ℚ) = half := by exact_mod_cast hr
    cases sticky with
    | true =>
      have := (Unpacked.holds_true.1 h).1
      simp only [zpow_zero, mul_one] at this
      simp only [hr, beq_self_eq_true, Bool.true_or, Bool.and_self, Bool.or_true, if_true]
      exact Or.inl (by linarith)
    | false =>
      have hm := Unpacked.holds_false.1 h
      simp only [zpow_zero, mul_one] at hm
      rcases Nat.mod_two_eq_zero_or_one kept with hp | hp
      · simp only [hr, hp, lt_irrefl, decide_false, beq_self_eq_true, Bool.false_or, Bool.true_and,
          show ((0 : Nat) == 1) = false from rfl, Bool.false_eq_true, if_false]
        exact Or.inr ⟨by linarith, trivial⟩
      · simp only [hr, hp, lt_irrefl, decide_false, beq_self_eq_true, Bool.false_or, Bool.true_and,
          if_true]
        exact Or.inr ⟨by linarith, trivial⟩
  · have : (half : ℚ) + 1 ≤ rest := by exact_mod_cast hr
    simp only [hr, decide_true, Bool.true_or, if_true]
    exact Or.inl (by linarith)

/-! ## Rounding -/

namespace FloatFormat

/-- A number whose bits from the last exponent kept lie `s` places up fills a binade there, or has
fewer bits at the last exponent of all. -/
theorem binade_bounds (fmt : FloatFormat) {lead : ℤ} {e l s n : Nat}
    (he : fmt.lastExp lead = fmt.minExp + e) (hl : (l : ℤ) = lead - fmt.lastExp lead + s)
    (hlow : 2 ^ l ≤ n) (hhigh : n < 2 ^ (l + 1)) :
    (e = 0 ∨ 2 ^ (fmt.fractionBits + s) ≤ n) ∧ n < 2 ^ (fmt.fractionBits + 1 + s) := by
  unfold lastExp at he hl
  constructor
  · rcases Nat.eq_zero_or_pos e with h0 | hpos
    · exact Or.inl h0
    · refine Or.inr (le_trans (Nat.pow_le_pow_right (by decide) ?_) hlow)
      omega
  · refine hhigh.trans_le (Nat.pow_le_pow_right (by decide) ?_)
    omega

/-- The bits kept of a significand fill a binade, or are fewer at the last exponent of all. -/
theorem kept_bounds (fmt : FloatFormat) {x : Unpacked} (hsig : x.sig ≠ 0) (e shift : Nat)
    (he : fmt.lastExp x.leadExp = fmt.minExp + e)
    (hshift : fmt.lastExp x.leadExp = x.exp + shift) :
    (e = 0 ∨ fmt.hiddenBit ≤ x.sig / 2 ^ shift) ∧ x.sig / 2 ^ shift < 2 * fmt.hiddenBit := by
  rw [hiddenBit_eq, Nat.le_div_iff_mul_le (Nat.two_pow_pos _), Nat.div_lt_iff_lt_mul
    (Nat.two_pow_pos _), ← pow_succ', ← pow_add, ← pow_add]
  refine fmt.binade_bounds he ?_ (Nat.log2_self_le hsig) Nat.lt_log2_self
  rw [hshift, Unpacked.leadExp]
  omega

/-- A significand shifted up to the last exponent kept stays within a binade. -/
theorem shifted_bounds (fmt : FloatFormat) {x : Unpacked} (hsig : x.sig ≠ 0) (e shift : Nat)
    (he : fmt.lastExp x.leadExp = fmt.minExp + e)
    (hshift : x.exp = fmt.lastExp x.leadExp + shift) :
    (e = 0 ∨ fmt.hiddenBit ≤ x.sig <<< shift) ∧ x.sig <<< shift < 2 * fmt.hiddenBit := by
  obtain ⟨hlow, hhigh⟩ := shiftLeft_bounds hsig shift
  rw [hiddenBit_eq, ← pow_succ']
  refine fmt.binade_bounds (s := 0) he ?_ hlow hhigh
  rw [Unpacked.leadExp] at hshift ⊢
  omega

end FloatFormat

namespace BinaryFloat

variable {fmt : FloatFormat}

/-- Rounding never changes the sign. -/
theorem roundPack_sign (x : Unpacked) (sticky : Bool) :
    (roundPack .gradual x sticky : BinaryFloat fmt).sign = x.sign := by
  unfold roundPack
  split
  · rfl
  · rw [if_neg (by simp)]
    rfl

/-- An empty significand packs to a zero of its sign, whatever the mode. -/
theorem roundPack_of_sig_eq_zero {x : Unpacked} {sticky : Bool} (mode : SubnormalMode)
    (hsig : x.sig = 0) : (roundPack mode x sticky : BinaryFloat fmt) = zero x.sign := by
  unfold roundPack
  exact if_pos hsig

/-- Packing as an equation on words: the binade, the rounded significand, and infinity as the cap. -/
theorem roundPack_of_ne_zero {x : Unpacked} (hsig : x.sig ≠ 0) (sticky : Bool) :
    (roundPack .gradual x sticky : BinaryFloat fmt).word =
      min ((fmt.lastExp x.leadExp - fmt.minExp).toNat * fmt.hiddenBit
        + x.significandAt (fmt.lastExp x.leadExp) sticky) fmt.infinityWord := by
  unfold roundPack
  rw [if_neg hsig, if_neg (by simp)]
  exact word_ofWord (Nat.min_le_right ..)

/-- No bits go: the number is one of the format, on a range of exponents without end. -/
theorem roundPack_word_of_le {x : Unpacked} (hsig : x.sig ≠ 0)
    (hexp : fmt.lastExp x.leadExp ≤ x.exp) (sticky : Bool) :
    ∃ w, fmt.magnitude w = x.sig * 2 ^ x.exp ∧
      (roundPack .gradual x sticky : BinaryFloat fmt).word = min w fmt.infinityWord := by
  obtain ⟨e, he⟩ := Int.eq_ofNat_of_zero_le
    (Int.sub_nonneg.2 (fmt.minExp_le_lastExp x.leadExp))
  obtain ⟨shift, hshift⟩ := Int.eq_ofNat_of_zero_le (Int.sub_nonneg.2 hexp)
  obtain ⟨hlow, hhigh⟩ := fmt.shifted_bounds hsig e shift (by omega) (by omega)
  refine ⟨e * fmt.hiddenBit + x.sig <<< shift, ?_, ?_⟩
  · rw [fmt.magnitude_binade hlow hhigh.le, show fmt.minExp + e = x.exp - shift by omega,
      shiftLeft_mul_zpow]
  · rw [roundPack_of_ne_zero hsig, Unpacked.significandAt, if_pos hexp, he, hshift]
    rfl

/-- Bits go: what is left is rounded to the nearest word. -/
theorem roundPack_roundsTo_of_lt {x : Unpacked} {sticky : Bool} {m : ℚ} (hsig : x.sig ≠ 0)
    (hlt : x.sig < 2 ^ 128) (h : x.Holds sticky m) (hexp : x.exp < fmt.lastExp x.leadExp) :
    fmt.RoundsTo m (roundPack .gradual x sticky : BinaryFloat fmt).word := by
  obtain ⟨e, he⟩ := Int.eq_ofNat_of_zero_le
    (Int.sub_nonneg.2 (fmt.minExp_le_lastExp x.leadExp))
  obtain ⟨shift, hshift⟩ := Int.eq_ofNat_of_zero_le (Int.sub_nonneg.2 hexp.le)
  have hpos : 0 < shift := by omega
  have hlast : fmt.minExp + e = x.exp + shift := by omega
  obtain ⟨hlow, hhigh⟩ := fmt.kept_bounds hsig e shift (by omega) (by omega)
  have hunit : (0 : ℚ) < 2 ^ x.exp := by positivity
  -- the number in units of the last bit of `x`
  obtain ⟨n, rfl⟩ : ∃ n, m = n * 2 ^ x.exp := ⟨m / 2 ^ x.exp, by field_simp⟩
  have hn : (⟨false, 0, x.sig⟩ : Unpacked).Holds sticky n := by
    cases sticky
    · rw [Unpacked.holds_false] at h ⊢
      simpa using mul_right_cancel₀ hunit.ne' h
    · rw [Unpacked.holds_true] at h ⊢
      simpa using h.imp (lt_of_mul_lt_mul_right · hunit.le) (lt_of_mul_lt_mul_right · hunit.le)
  have hscale : ∀ c : ℚ, c * 2 ^ (fmt.minExp + e) = c * 2 ^ shift * 2 ^ x.exp := by
    intro c
    rw [hlast, add_comm, zpow_add₀ (by norm_num), zpow_natCast, mul_assoc]
  have hspec := roundsUp_spec hpos hn
  refine ⟨_, fmt.isNearestWord_of_binade (roundsUp (x.sig / 2 ^ shift) (x.sig % 2 ^ shift)
    (2 ^ (shift - 1)) sticky) hlow hhigh ?_ ?_ ?_ ?_, ?_⟩
  · rw [hscale]
    refine mul_le_mul_of_nonneg_right (le_trans ?_ hn.le) hunit.le
    simp only [zpow_zero, mul_one]
    exact_mod_cast Nat.div_mul_le_self x.sig (2 ^ shift)
  · rw [hscale]
    refine mul_lt_mul_of_pos_right (hn.lt.trans_le ?_) hunit
    simp only [zpow_zero, mul_one]
    have hnext : x.sig < 2 ^ shift * (x.sig / 2 ^ shift + 1) :=
      Nat.lt_mul_div_succ x.sig (Nat.two_pow_pos shift)
    rw [Nat.mul_comm] at hnext
    exact_mod_cast hnext
  · intro hup
    rw [hup, if_neg (by simp)] at hspec
    rw [hscale]
    exact hspec.imp (mul_lt_mul_of_pos_right · hunit) fun h => ⟨by rw [h.1], h.2⟩
  · intro hup
    rw [hup, if_pos rfl] at hspec
    rw [hscale]
    exact hspec.imp (mul_lt_mul_of_pos_right · hunit) fun h => ⟨by rw [h.1], h.2⟩
  · rw [roundPack_of_ne_zero hsig, Unpacked.significandAt, if_neg (by omega), he, hshift,
      ← shiftRightNearest_eq hlt]
    rfl

/-- Rounding finds the nearest word, cut at infinity. -/
theorem roundPack_roundsTo {x : Unpacked} {sticky : Bool} {m : ℚ} (hsig : x.sig ≠ 0)
    (hlt : x.sig < 2 ^ 128) (h : x.Holds sticky m)
    (hs : sticky = true → x.exp < fmt.lastExp x.leadExp) :
    fmt.RoundsTo m (roundPack .gradual x sticky : BinaryFloat fmt).word := by
  rcases Int.lt_or_le x.exp (fmt.lastExp x.leadExp) with hexp | hexp
  · exact roundPack_roundsTo_of_lt hsig hlt h hexp
  · have hsticky : sticky = false := by
      cases sticky
      · rfl
      · exact absurd (hs rfl) (by omega)
    rw [hsticky, Unpacked.holds_false] at h
    obtain ⟨w, hw, hword⟩ := roundPack_word_of_le hsig hexp sticky
    rw [h, ← hw, hword]
    exact .of_magnitude w

/-- With more bits than the format keeps, the sticky flag is free. -/
theorem roundPack_roundsTo_of_bits {x : Unpacked} {sticky : Bool} {m : ℚ}
    (hbits : 2 ^ (fmt.fractionBits + 1) ≤ x.sig) (hlt : x.sig < 2 ^ 128) (h : x.Holds sticky m) :
    fmt.RoundsTo m (roundPack .gradual x sticky : BinaryFloat fmt).word := by
  have hsig : x.sig ≠ 0 := ((Nat.two_pow_pos _).trans_le hbits).ne'
  exact roundPack_roundsTo hsig hlt h fun _ => Unpacked.exp_lt_lastExp hbits

/-! ## Numbers of the format -/

/-- A significand of the format's precision at an exponent in its range. -/
theorem exists_magnitude_eq (fmt : FloatFormat) {n : Nat} {k : ℤ} (hn : n ≠ 0)
    (hlt : n < 2 * fmt.hiddenBit) (hk : fmt.minExp ≤ k) : ∃ w, fmt.magnitude w = n * 2 ^ k := by
  have hlog : n.log2 < fmt.fractionBits + 1 := by
    rw [Nat.log2_lt hn, pow_succ']
    exact hlt
  obtain ⟨w, hw, -⟩ := @roundPack_word_of_le fmt ⟨false, k, n⟩ hn
    (by simp only [FloatFormat.lastExp, Unpacked.leadExp]; omega) false
  exact ⟨w, hw⟩

/-- A number of the format is rounded to itself. -/
theorem roundPack_exact {x : Unpacked} {w : Nat} (hsig : x.sig ≠ 0) (hlt : x.sig < 2 ^ 128)
    (hw : fmt.magnitude w = x.sig * 2 ^ x.exp) :
    (roundPack .gradual x false : BinaryFloat fmt).word = min w fmt.infinityWord := by
  have h : fmt.RoundsTo _ _ := roundPack_roundsTo hsig hlt (Unpacked.holds_false.2 hw) (by simp)
  exact h.unique (.of_magnitude w)

/-- Unpacking by whether the exponent field is empty. -/
theorem unpack_eq (x : BinaryFloat fmt) :
    x.unpack .gradual = if x.word / fmt.hiddenBit = 0
      then ⟨x.sign, fmt.minExp, x.word % fmt.hiddenBit⟩
      else ⟨x.sign, fmt.minExp + (x.word / fmt.hiddenBit : ℕ) - 1,
        x.word % fmt.hiddenBit + fmt.hiddenBit⟩ := rfl

theorem unpack_sign (x : BinaryFloat fmt) : (x.unpack .gradual).sign = x.sign := by
  rw [unpack_eq]
  split <;> rfl

/-- The unpacked significand and exponent are the magnitude. -/
theorem magnitude_unpack (x : BinaryFloat fmt) :
    fmt.magnitude x.word = (x.unpack .gradual).sig * 2 ^ (x.unpack .gradual).exp := by
  rw [unpack_eq, FloatFormat.magnitude]
  split
  · rfl
  · rw [Nat.add_comm fmt.hiddenBit]

/-- An unpacked significand has the bits of the precision. -/
theorem unpack_sig_lt (x : BinaryFloat fmt) : (x.unpack .gradual).sig < 2 * fmt.hiddenBit := by
  have := Nat.mod_lt x.word fmt.hiddenBit_pos
  rw [unpack_eq]
  split
  · simp only
    omega
  · simp only
    omega

/-- The binade of a float: its word is that of its significand, counted up by the exponent. -/
theorem unpack_binade (x : BinaryFloat fmt) : ∃ e : ℕ, (x.unpack .gradual).exp = fmt.minExp + e ∧
    x.word = e * fmt.hiddenBit + (x.unpack .gradual).sig ∧
    (e = 0 ∨ fmt.hiddenBit ≤ (x.unpack .gradual).sig) := by
  have hword := Nat.div_add_mod' x.word fmt.hiddenBit
  rw [unpack_eq]
  generalize x.word / fmt.hiddenBit = q at hword
  generalize x.word % fmt.hiddenBit = r at hword
  split
  · next h0 =>
    rw [h0, Nat.zero_mul, Nat.zero_add] at hword
    refine ⟨0, by simp, ?_, Or.inl rfl⟩
    rw [Nat.zero_mul, Nat.zero_add, hword]
  · next h0 =>
    obtain ⟨e, rfl⟩ := Nat.exists_eq_succ_of_ne_zero h0
    rw [Nat.succ_mul] at hword
    refine ⟨e, ?_, ?_, Or.inr (Nat.le_add_left ..)⟩
    · show fmt.minExp + ((e + 1 : ℕ) : ℤ) - 1 = fmt.minExp + e
      omega
    · show x.word = e * fmt.hiddenBit + (r + fmt.hiddenBit)
      omega

/-- The next word is one more of the same units, also where it begins the next binade. -/
theorem magnitude_succ_word (x : BinaryFloat fmt) : fmt.magnitude (x.word + 1) =
    ((x.unpack .gradual).sig + 1) * 2 ^ (x.unpack .gradual).exp := by
  obtain ⟨e, hexp, hword, hlow⟩ := unpack_binade x
  rw [hword, Nat.add_assoc, fmt.magnitude_binade (hlow.imp id Nat.le_succ_of_le) (unpack_sig_lt x), hexp]
  push_cast
  rfl

/-- No float has a place below the last one of the format. -/
theorem minExp_le_unpack (x : BinaryFloat fmt) : fmt.minExp ≤ (x.unpack .gradual).exp := by
  obtain ⟨e, hexp, -, -⟩ := unpack_binade x
  omega

/-- The last place of a finite float is no higher than that of the greatest number. -/
theorem unpack_exp_le {x : BinaryFloat fmt} (h : x.isFinite = true) :
    (x.unpack .gradual).exp ≤ fmt.maxLead - fmt.fractionBits := by
  obtain ⟨e, hexp, hword, hlow⟩ := unpack_binade x
  have hbias := fmt.one_le_bias
  have hlt : e < 2 * fmt.bias := by
    rcases hlow with rfl | hlow
    · omega
    · rw [isFinite_iff, fmt.infinityWord_eq, Nat.succ_mul, hword] at h
      exact lt_of_mul_lt_mul_right (by omega : e * fmt.hiddenBit < _) (Nat.zero_le _)
  rw [hexp, fmt.minExp_eq, FloatFormat.maxLead]
  omega

theorem unpack_exp_le_maxLead {x : BinaryFloat fmt} (h : x.isFinite = true) :
    (x.unpack .gradual).exp ≤ fmt.maxLead :=
  (unpack_exp_le h).trans (sub_le_self _ (Int.natCast_nonneg _))

theorem unpack_sig_eq_zero_iff (x : BinaryFloat fmt) :
    (x.unpack .gradual).sig = 0 ↔ x.word = 0 := by
  have hpow : ((2 : ℚ) ^ (x.unpack .gradual).exp) ≠ 0 := by positivity
  have hzero : fmt.magnitude x.word = 0 ↔ x.word = 0 := by
    rw [← fmt.magnitude_injective.eq_iff, fmt.magnitude_zero]
  rw [← hzero, magnitude_unpack x, mul_eq_zero, or_iff_left hpow, Nat.cast_eq_zero]

theorem hiddenBit_le (fmt : FloatFormat) : fmt.hiddenBit ≤ 2 ^ 52 := by
  rw [fmt.hiddenBit_eq]
  exact Nat.pow_le_pow_right (by decide) fmt.fractionBits_le

end BinaryFloat

end MachineNumbers
