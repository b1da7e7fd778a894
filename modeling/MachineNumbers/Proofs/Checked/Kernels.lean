import Mathlib
import MachineNumbers.BinaryFloat.Checked.Kernels
import MachineNumbers.Proofs.Arithmetic.Remainder
import MachineNumbers.Proofs.Arithmetic.SquareRoot
import MachineNumbers.Proofs.Arithmetic.Sum
import MachineNumbers.Proofs.Checked.Packing

/-!
# The kernels fit their words

Each kernel takes no step that fails on the operands that the operations hand to it, and its result is
within the bounds that rounding asks for.  A normalised significand has 126 bits, so that a sum has 127 and
one more place is left for a square root; a product of two floats has 106; the reductions keep their rest
below a divisor of 64 bits, and what the nearest remainder doubles is one bit finer than that.
-/

namespace MachineNumbers

namespace Unpacked

variable {x y : Unpacked} {range : ℤ}

/-! ## Bounds of the results -/

/-- Normalising moves the exponent by no more than the bits it fills. -/
theorem Within.normalised (h0 : x.sig ≠ 0) (hx : x.Within 126 range) :
    x.normalised.Within 126 (range + 125) := by
  obtain ⟨-, hhigh, -⟩ := BinaryFloat.normalised_spec h0 hx.sig_lt
  have hlow := hx.neg_le_exp
  have hexp := hx.exp_le
  refine ⟨hhigh, ?_, ?_⟩
  all_goals
    unfold Unpacked.normalised leadPlace
    dsimp only
    omega

/-- A sum has the exponent of one of its normalised operands. -/
theorem add_exp (x y : Unpacked) :
    (x.add y).1.exp = x.normalised.exp ∨ (x.add y).1.exp = y.normalised.exp := by
  unfold add
  by_cases h : y.normalised.exp < x.normalised.exp ∨
      (y.normalised.exp = x.normalised.exp ∧ y.normalised.sig ≤ x.normalised.sig)
  · exact .inl (by simp only [h, if_true])
  · exact .inr (by simp only [h, if_false])

theorem Within.add (hx0 : x.sig ≠ 0) (hx : x.Within 125 range) (hy0 : y.sig ≠ 0)
    (hy : y.Within 125 range) : (x.add y).1.Within 127 (range + 125) := by
  have hxn := (hx.mono (by decide) le_rfl).normalised hx0
  have hyn := (hy.mono (by decide) le_rfl).normalised hy0
  refine ⟨(add_sumOf hx0 hx.sig_lt hy0 hy.sig_lt).sig_lt, ?_, ?_⟩
  · rcases add_exp x y with h | h
    · exact h ▸ hxn.neg_le_exp
    · exact h ▸ hyn.neg_le_exp
  · rcases add_exp x y with h | h
    · exact h ▸ hxn.exp_le
    · exact h ▸ hyn.exp_le

/-- Significands of two operands fill at most twice their bits. -/
theorem Within.mul (hx : x.Within 53 range) (hy : y.Within 53 range) :
    (x.mul y).Within 106 (range + range) := by
  refine ⟨(Nat.mul_lt_mul'' hx.sig_lt hy.sig_lt).trans_eq (by rw [← pow_add]), ?_, ?_⟩
  · rw [neg_add]
    exact add_le_add hx.neg_le_exp hy.neg_le_exp
  · exact add_le_add hx.exp_le hy.exp_le

theorem Within.div (hx0 : x.sig ≠ 0) (hx : x.Within 126 range) (hy : y.Within 53 range) :
    (x.div y).1.Within 126 (range + 125 + range) := by
  have hn := hx.normalised hx0
  have hlow := hn.neg_le_exp
  have hhigh := hn.exp_le
  have hylow := hy.neg_le_exp
  have hyhigh := hy.exp_le
  refine ⟨(Nat.div_le_self _ _).trans_lt hn.sig_lt, ?_, ?_⟩
  all_goals
    unfold Unpacked.div
    dsimp only
    omega

theorem Within.sqrt (hx0 : x.sig ≠ 0) (hx : x.Within 126 range) :
    x.sqrt.1.Within 64 (range + 126) := by
  have hn := hx.normalised hx0
  have hlow := hn.neg_le_exp
  have hhigh := hn.exp_le
  refine ⟨(standsFor_sqrt hx0 hx.sig_lt).2.2, ?_, ?_⟩
  all_goals
    unfold Unpacked.sqrt
    dsimp only
    split <;> omega

/-- The rest is smaller than the divisor and stands at the lower of the two exponents. -/
theorem Within.remainderAt (hx : x.Within 53 range) (hy0 : y.sig ≠ 0) (hy : y.Within 53 range)
    (sign : Bool) : (⟨sign, (remainderAt x.sig x.exp y.sig y.exp).2,
      (remainderAt x.sig x.exp y.sig y.exp).1⟩ : Unpacked).Within 64 range := by
  have hx' : x.sig < 2 ^ 64 := hx.sig_lt.trans (by decide)
  have hy' : y.sig < 2 ^ 64 := hy.sig_lt.trans (by decide)
  have hpos := Nat.pos_of_ne_zero hy0
  have hexp : (MachineNumbers.remainderAt x.sig x.exp y.sig y.exp).2 = min x.exp y.exp := by
    rw [remainderAt_eq hx' hpos]
  refine ⟨remainderAt_lt hx' hpos hy', ?_, ?_⟩
  · exact hexp ▸ le_min hx.neg_le_exp hy.neg_le_exp
  · exact hexp ▸ (min_le_left _ _).trans hx.exp_le

theorem Within.nearestRemainder (hx : x.Within 53 range) (hy0 : y.sig ≠ 0) (hy : y.Within 53 range) :
    (x.nearestRemainder y).Within 65 (range + 1) := by
  have hx' : x.sig < 2 ^ 64 := hx.sig_lt.trans (by decide)
  have hy' : y.sig < 2 ^ 64 := hy.sig_lt.trans (by decide)
  have hpos := Nat.pos_of_ne_zero hy0
  have hlt := @remainderAt_lt x.sig y.sig x.exp (y.exp + 1) hx' hpos hy'
  have hexp : (x.nearestRemainder y).exp = min x.exp (y.exp + 1) - 1 := by
    unfold Unpacked.nearestRemainder
    rw [remainderAt_eq hx' hpos]
  have hxlow := hx.neg_le_exp
  have hxhigh := hx.exp_le
  have hylow := hy.neg_le_exp
  exact ⟨(nearestRemainder_sig_le x y).trans_lt (by omega), by omega, by omega⟩

end Unpacked

namespace Checked

open MachineWord

variable {x y : Unpacked}

/-! ## Sums -/

theorem aligned?_eq {sig : ℕ} (h0 : sig ≠ 0) (hlt : sig < 2 ^ 126) (shift : ℕ) :
    aligned? sig shift = some (sig / 2 ^ shift, sig % 2 ^ shift != 0) := by
  rw [← Unpacked.aligned_eq h0 hlt shift]
  unfold aligned?
  split
  · rfl
  · next hnear =>
    have hback : sig >>> shift <<< shift = sig - sig % 2 ^ shift := by
      rw [Nat.shiftRight_eq_div_pow, Nat.shiftLeft_eq, Nat.div_mul_self_eq_mod_sub_self]
    have hle := Nat.mod_le sig (2 ^ shift)
    have hlost : (sig - sig % 2 ^ shift != sig) = (sig % Nat.pow 2 shift != 0) := by
      rw [Nat.pow_eq, Bool.eq_iff_iff, bne_iff_ne, bne_iff_ne]
      omega
    rw [bind_of_some (shiftRight?_of_lt (by omega) sig),
      bind_of_some (shiftLeft?_of_lt (by omega) (by omega)), hback, hlost]

theorem combined?_eq {same lost : Bool} {big aligned : ℕ} (hbig : big < 2 ^ 126)
    (haligned : aligned < 2 ^ 126) (hle : aligned + lost.toNat ≤ big) :
    combined? same big aligned lost =
      some (if same then big + aligned else big - aligned - lost.toNat) := by
  unfold combined?
  split
  · exact sum?_of_lt (by omega)
  · rw [bind_of_some (difference?_of_le (by omega)), difference?_of_le (by omega)]

/-- The part of the lesser number that stays in place, with what is borrowed for the rest. -/
theorem div_add_lost_le {sig big D : ℕ} (hD : 0 < D) (h : sig ≤ big * D) :
    sig / D + (sig % D != 0).toNat ≤ big := by
  have hsplit := Nat.div_add_mod sig D
  by_cases hrest : sig % D = 0
  · rw [hrest, bne_self_eq_false, Bool.toNat_false, Nat.add_zero]
    exact (Nat.div_le_iff_le_mul_add_pred hD).2 (by rw [Nat.mul_comm]; omega)
  · rw [bne_iff_ne.2 hrest, Bool.toNat_true]
    have hlt : sig < big * D ∨ sig = big * D := by omega
    rcases hlt with hlt | rfl
    · exact (Nat.div_lt_iff_lt_mul hD).2 hlt
    · exact absurd (Nat.mul_mod_left big D) hrest

/-- The aligned sum needs one bit above its operands, which the bounds leave free. -/
theorem addOrdered?_eq {big small : Unpacked} (hbig : 2 ^ 125 ≤ big.sig)
    (hwithin : big.Within 126 (2 ^ 21)) (h0 : small.sig ≠ 0) (hsmall : small.Within 126 (2 ^ 21))
    (horder : small.exp < big.exp ∨ (small.exp = big.exp ∧ small.sig ≤ big.sig)) :
    addOrdered? big small = some (Unpacked.addOrdered big small) := by
  have hle := Unpacked.le_aligned hbig hsmall.sig_lt horder
  obtain ⟨hbig', hlow, hhigh⟩ := hwithin
  obtain ⟨hsig, hslow, hshigh⟩ := hsmall
  have hquot := Nat.div_le_self small.sig (2 ^ (big.exp - small.exp).toNat)
  unfold addOrdered? Unpacked.addOrdered
  rw [bind_of_some (amount?_of_bounds (by omega) (by omega)), bind_of_some (aligned?_eq h0 hsig _)]
  dsimp only
  rw [bind_of_some (combined?_eq hbig' (by omega) (div_add_lost_le (Nat.two_pow_pos _) hle))]
  simp only [beq_iff_eq]

/-- Nothing overflows when two operands are normalised, ordered and added. -/
theorem sum?_eq (hx0 : x.sig ≠ 0) (hx : x.Within 125 (2 ^ 20)) (hy0 : y.sig ≠ 0)
    (hy : y.Within 125 (2 ^ 20)) : sum? x y = some (x.add y) := by
  have hx' : x.Within 126 (2 ^ 20) := hx.mono (by decide) le_rfl
  have hy' : y.Within 126 (2 ^ 20) := hy.mono (by decide) le_rfl
  obtain ⟨hxlow, -, -⟩ := BinaryFloat.normalised_spec hx0 hx'.sig_lt
  obtain ⟨hylow, -, -⟩ := BinaryFloat.normalised_spec hy0 hy'.sig_lt
  have hxn : x.normalised.Within 126 (2 ^ 21) := (hx'.normalised hx0).mono le_rfl (by decide)
  have hyn : y.normalised.Within 126 (2 ^ 21) := (hy'.normalised hy0).mono le_rfl (by decide)
  unfold sum?
  rw [bind_of_some (normalised?_eq hx0 hx'), bind_of_some (normalised?_eq hy0 hy'),
    Unpacked.add_eq (by omega) hxn.sig_lt (by omega) hyn.sig_lt]
  split
  · next h => exact addOrdered?_eq hxlow hxn (by omega) hyn h
  · next h => exact addOrdered?_eq hylow hyn (by omega) hxn (by omega)

/-! ## Products, quotients and square roots -/

theorem product?_eq (hx : x.Within 53 (2 ^ 15)) (hy : y.Within 53 (2 ^ 15)) :
    product? x y = some (x.mul y) := by
  have hsig : x.sig * y.sig < 2 ^ 128 :=
    (hx.mul hy).sig_lt.trans_le (Nat.pow_le_pow_right (by decide) (by decide))
  have hlow : -(2 ^ 15 + 2 ^ 15) ≤ x.exp + y.exp := (hx.mul hy).neg_le_exp
  have hhigh : x.exp + y.exp ≤ 2 ^ 15 + 2 ^ 15 := (hx.mul hy).exp_le
  unfold product?
  rw [bind_of_some (exponent?_of_bounds (by omega) (by omega)), bind_of_some (product?_of_lt hsig)]
  rfl

/-- A product beyond 128 bits is refused. -/
example : product? ⟨false, 0, 2 ^ 64⟩ ⟨false, 0, 2 ^ 64⟩ = none := by decide

theorem quotient?_eq (hx0 : x.sig ≠ 0) (hx : x.Within 126 (2 ^ 17)) (hy0 : y.sig ≠ 0)
    (hy : y.Within 53 (2 ^ 17)) : quotient? x y = some (x.div y) := by
  have hlow : -(2 ^ 17 + 125 + 2 ^ 17) ≤ x.normalised.exp - y.exp := (hx.div hx0 hy).neg_le_exp
  have hhigh : x.normalised.exp - y.exp ≤ 2 ^ 17 + 125 + 2 ^ 17 := (hx.div hx0 hy).exp_le
  have hpos := Nat.pos_of_ne_zero hy0
  unfold quotient?
  rw [bind_of_some (normalised?_eq hx0 (hx.mono le_rfl (by decide))),
    bind_of_some (quotient?_of_pos hpos _), bind_of_some (remainder?_of_pos hpos _),
    bind_of_some (exponent?_of_bounds (by omega) (by omega))]
  rfl

theorem rootOf?_eq {sig : ℕ} {exp : ℤ} (hsig : sig < 2 ^ 128) (heven : exp % 2 = 0) :
    rootOf? sig exp = some (⟨false, exp / 2, integerSqrt sig⟩,
      integerSqrt sig * integerSqrt sig != sig) := by
  have hhalf : exp.tdiv 2 = exp / 2 := Int.tdiv_eq_ediv_of_dvd (Int.dvd_of_emod_eq_zero heven)
  unfold rootOf?
  dsimp only
  rw [bind_of_some (product?_of_lt ((integerSqrt_spec sig).1.trans_lt hsig)), hhalf]

theorem squareRoot?_eq (h0 : x.sig ≠ 0) (hx : x.Within 126 (2 ^ 17)) :
    squareRoot? x = some x.sqrt := by
  obtain ⟨hsig, hlow, hhigh⟩ := hx.normalised h0
  unfold squareRoot? Unpacked.sqrt
  rw [bind_of_some (normalised?_eq h0 (hx.mono le_rfl (by decide)))]
  dsimp only
  by_cases hodd : x.normalised.exp % 2 ≠ 0
  · -- under an odd exponent the significand takes the place that is left
    have hshift : x.normalised.sig <<< 1 < 2 ^ 128 := by
      rw [Nat.shiftLeft_eq]
      omega
    simp only [if_pos hodd]
    rw [bind_of_some (shiftLeft?_of_lt (by decide) hshift),
      bind_of_some (exponent?_of_bounds (by omega) (by omega)), rootOf?_eq hshift (by omega)]
  · simp only [if_neg hodd]
    rw [rootOf?_eq (by omega) (by omega)]

/-! ## Remainders -/

/-- Before each reduction the rest is shifted by 64 bits at most. -/
theorem shiftedMod?_eq {r d m : ℕ} (hr : r < m) (hm : m ≤ 2 ^ 64) :
    shiftedMod? r d m = some (shiftedMod r d m) := by
  rw [shiftedMod_eq hr]
  induction d using Nat.strong_induction_on generalizing r with
  | _ d ih =>
    rw [shiftedMod?]
    split
    · next hd => rw [hd, pow_zero, Nat.mul_one, Nat.mod_eq_of_lt hr]
    · next hd =>
      have hpos : 0 < m := (Nat.zero_le r).trans_lt hr
      have hsplit : d = min d 64 + (d - min d 64) := by omega
      rw [bind_of_some (shiftLeft?_of_bits (hr.trans_le hm) (by decide) (by omega)),
        bind_of_some (remainder?_of_pos hpos _),
        ih (d - min d 64) (by omega) (Nat.mod_lt _ hpos), Nat.mod_mul_mod, Nat.shiftLeft_eq,
        Nat.mul_assoc, ← pow_add, ← hsplit]

/-- The reduction shifts a residue of 64 bits by at most 64 places, which 128 bits hold. -/
theorem remainderAt?_eq {mx my : ℕ} {ex ey : ℤ} (hmy : 0 < my) (hmy' : my < 2 ^ 64)
    (hex : -2 ^ 20 ≤ ex ∧ ex ≤ 2 ^ 20) (hey : -2 ^ 20 ≤ ey ∧ ey ≤ 2 ^ 20) :
    remainderAt? mx ex my ey = some (remainderAt mx ex my ey) := by
  unfold remainderAt? remainderAt
  split
  · rw [bind_of_some (remainder?_of_pos hmy mx),
      bind_of_some (amount?_of_bounds (by omega) (by omega)),
      bind_of_some (shiftedMod?_eq (Nat.mod_lt _ hmy) hmy'.le)]
  · rw [bind_of_some (amount?_of_bounds (by omega) (by omega))]
    dsimp only
    split
    · rfl
    · have hpos : 0 < my <<< (ey - ex).toNat := by
        rw [Nat.shiftLeft_eq]
        positivity
      rw [bind_of_some (shiftLeft?_of_bits hmy' (by decide) (by omega)),
        bind_of_some (remainder?_of_pos hpos _)]

theorem withoutOdd?_eq (r divisor : ℕ) : withoutOdd? r divisor =
    some (if decide (divisor ≤ r) then r - divisor else r, decide (divisor ≤ r)) := by
  unfold withoutOdd?
  split
  · next hle => rw [bind_of_some (difference?_of_le hle), decide_eq_true hle, if_pos rfl]
  · next hlt => rw [decide_eq_false hlt, if_neg Bool.false_ne_true]

theorem without_odd_le {r divisor : ℕ} (h : r < 2 * divisor) :
    (if decide (divisor ≤ r) then r - divisor else r) ≤ divisor ∧
      (if decide (divisor ≤ r) then r - divisor else r) ≤ r := by
  simp only [decide_eq_true_eq]
  split <;> omega

/-- Twice the rest is compared with the divisor, and is the largest number formed there. -/
theorem nearestOf?_eq {r divisor : ℕ} (odd : Bool) (hr : r < 2 ^ 127) (hle : r ≤ divisor) :
    nearestOf? r divisor odd =
      some (if decide (divisor < 2 * r) || (2 * r == divisor && odd) then divisor - r else r,
        decide (divisor < 2 * r) || (2 * r == divisor && odd)) := by
  have hpast : (decide (divisor < 2 * r) || (2 * r == divisor && odd)) = true ↔
      divisor < 2 * r ∨ (2 * r = divisor ∧ odd = true) := by simp
  unfold nearestOf?
  rw [bind_of_some (product?_of_lt (by omega))]
  split
  · next h => rw [bind_of_some (difference?_of_le hle), hpast.2 h, if_pos rfl]
  · next h => rw [Bool.eq_false_iff.2 (mt hpast.1 h), if_neg Bool.false_ne_true]

/-- Near the divisor, the divisor at one bit finer fits beside the doubled rest. -/
theorem nearestRemainder?_eq (hx : x.Within 53 (2 ^ 15)) (hy0 : y.sig ≠ 0)
    (hy : y.Within 53 (2 ^ 15)) (hnear : y.exp - x.exp < 54) :
    nearestRemainder? x y = some (x.nearestRemainder y) := by
  obtain ⟨hxsig, hxlow, hxhigh⟩ := hx
  obtain ⟨hysig, hylow, hyhigh⟩ := hy
  have hpos := Nat.pos_of_ne_zero hy0
  have hysig' : y.sig < 2 ^ 64 := hysig.trans (by decide)
  have hxsig' : x.sig < 2 ^ 64 := hxsig.trans (by decide)
  have hmod := @remainderAt_eq x.sig y.sig x.exp (y.exp + 1) hxsig' hpos
  have hlt := @remainderAt_lt x.sig y.sig x.exp (y.exp + 1) hxsig' hpos hysig'
  unfold nearestRemainder? Unpacked.nearestRemainder
  rw [bind_of_some (exponent?_of_bounds (by omega) (by omega)),
    bind_of_some (remainderAt?_eq hpos hysig' (by omega) (by omega))]
  generalize remainderAt x.sig x.exp y.sig (y.exp + 1) = left at hmod hlt
  obtain ⟨r, e⟩ := left
  obtain ⟨hr, he⟩ := Prod.mk.inj hmod
  dsimp only at hlt ⊢
  have hfiner : y.exp - e + 1 = y.exp + 1 - min x.exp (y.exp + 1) := by omega
  -- the reduction was modulo twice the divisor
  have hrest : r < y.sig <<< (y.exp - e + 1).toNat := by
    rw [hr, hfiner, Nat.shiftLeft_eq]
    exact Nat.mod_lt _ (Nat.mul_pos hpos (Nat.two_pow_pos _))
  have hdouble : r <<< 1 = 2 * r := by rw [Nat.shiftLeft_eq, pow_one, Nat.mul_comm]
  rw [bind_of_some (shiftLeft?_of_bits hlt (by decide) (by decide)),
    bind_of_some (exponent?_of_bounds (by omega) (by omega)),
    bind_of_some (amount?_of_bounds (by omega) (by omega)),
    bind_of_some (shiftLeft?_of_bits hysig (by decide) (by omega)),
    bind_of_some (exponent?_of_bounds (by omega) (by omega)), hdouble,
    bind_of_some (withoutOdd?_eq _ _)]
  dsimp only
  obtain ⟨hbelow, hle⟩ := without_odd_le (r := 2 * r) (Nat.mul_lt_mul_of_pos_left hrest Nat.two_pos)
  rw [bind_of_some (nearestOf?_eq _ (by omega) hbelow)]

end Checked

end MachineNumbers
