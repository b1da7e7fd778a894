import Mathlib
import MachineNumbers.Decimal.Checked
import MachineNumbers.Proofs.Decimal.Nearest
import MachineNumbers.Proofs.Limbs.Splitting

/-!
# Decimals fit machine words

Up to 19 digits fit one word of 64 bits (`small?_eq`).  Nine digits and the power of ten behind them fit one
limb, so that any number of digits can be put together in limbs; these are the same as with one digit at a
time (`big?_eq`).

A decimal of neither cut-off has a power of ten that its digits make up for (`Sized`), which bounds the
length of its limbs and the shift that leaves a word of them (`Sized.product?_eq`).
-/

namespace MachineNumbers.CheckedDecimal

open MachineWord
open Positional (ofDigits)

variable {width n : ℕ} {ds : List ℕ} {x : Limbs} {fmt : FloatFormat} {d : Decimal}

/-! ## One word -/

/-- No number on the way is greater than the last, which the word holds. -/
theorem ofDigits?_eq (h : n * 10 ^ ds.length + ofDigits 10 ds < 2 ^ width) :
    ofDigits? width n ds = some (n * 10 ^ ds.length + ofDigits 10 ds) := by
  induction ds generalizing n with
  | nil => rw [Positional.ofDigits_nil, List.length_nil, pow_zero, Nat.mul_one]; rfl
  | cons digit ds ih =>
    have hnext : n * 10 ^ (digit :: ds).length + ofDigits 10 (digit :: ds) =
        (n * 10 + digit) * 10 ^ ds.length + ofDigits 10 ds := by
      rw [Positional.ofDigits_cons, List.length_cons, pow_succ]
      ring
    rw [hnext] at h ⊢
    have hle : n * 10 + digit ≤ (n * 10 + digit) * 10 ^ ds.length :=
      Nat.le_mul_of_pos_right _ (by positivity)
    rw [ofDigits?, bind_of_some (product?_of_lt (by omega)), bind_of_some (sum?_of_lt (by omega))]
    exact ih h

/-- Few digits fit, whatever they are. -/
theorem ofDigits?_of_length (hds : ∀ x ∈ ds, x < 10) (h : 10 ^ ds.length ≤ 2 ^ width) :
    ofDigits? width 0 ds = some (ofDigits 10 ds) := by
  have heq : 0 * 10 ^ ds.length + ofDigits 10 ds = ofDigits 10 ds := by rw [Nat.zero_mul, Nat.zero_add]
  have hlt := (Positional.ofDigits_lt hds).trans_le h
  rw [ofDigits?_eq (by rwa [heq]), heq]

theorem small?_eq (h : ∀ x ∈ d.digits, x < 10) :
    small? d = some (if 19 < d.digits.length then none else some d.mantissa) := by
  unfold small?
  split
  · rfl
  · next hfew =>
    have hpow : 10 ^ d.digits.length ≤ 2 ^ 64 :=
      (Nat.pow_le_pow_right (by decide) (not_lt.1 hfew)).trans (by norm_num)
    rw [ofDigits?_of_length h hpow]
    rfl

/-! ## Limbs -/

/-- Nine digits are one limb, and so is the power of ten that makes room for them. -/
theorem bigFrom?_represents (hx : x.Represents n) (hds : ∀ y ∈ ds, y < 10) :
    ∃ y, bigFrom? x ds = some y ∧ y.Represents (n * 10 ^ ds.length + ofDigits 10 ds) := by
  induction hlength : ds.length using Nat.strong_induction_on generalizing ds x n with
  | h length ih =>
    subst hlength
    rw [bigFrom?]
    split
    · next hempty =>
      rw [List.isEmpty_iff.1 hempty]
      refine ⟨x, rfl, ?_⟩
      rwa [Positional.ofDigits_nil, List.length_nil, pow_zero, Nat.mul_one]
    · next hmore =>
      have hpos : 0 < ds.length := List.length_pos_iff.2 fun h0 => hmore (List.isEmpty_iff.2 h0)
      have hchunk : ∀ y ∈ ds.take 9, y < 10 := fun y hy => hds y (List.mem_of_mem_take hy)
      have hlimb : 10 ^ (ds.take 9).length < 2 ^ 32 :=
        (Nat.pow_le_pow_right (by decide) (List.length_take_le 9 ds)).trans_lt (by norm_num)
      have hvalue := (Positional.ofDigits_lt hchunk).trans hlimb
      have hstep := hx.mulAddSmall (UInt32.ofNat (10 ^ (ds.take 9).length))
        (UInt32.ofNat (ofDigits 10 (ds.take 9)))
      rw [Limbs.toNat_ofNat, Limbs.toNat_ofNat, Limbs.base_eq, Nat.mod_eq_of_lt hlimb,
        Nat.mod_eq_of_lt hvalue] at hstep
      obtain ⟨y, hy, hrep⟩ := ih (ds.drop 9).length (by rw [List.length_drop]; omega) hstep
        (fun y hy => hds y (List.mem_of_mem_drop hy)) rfl
      refine ⟨y, ?_, ?_⟩
      · rw [bind_of_some (ofDigits?_of_length hchunk hlimb.le), Nat.pow_eq,
          bind_of_some (unsigned?_of_lt hlimb), bind_of_some (CheckedLimbs.mulAddSmall?_eq x _ _), hy]
      · -- the chunk and the digits behind it are all digits
        have hjoin : n * 10 ^ ds.length + ofDigits 10 ds =
            (n * 10 ^ (ds.take 9).length + ofDigits 10 (ds.take 9)) * 10 ^ (ds.drop 9).length +
              ofDigits 10 (ds.drop 9) := by
          conv_lhs => rw [← List.take_append_drop 9 ds, Positional.ofDigits_append, List.length_append,
            pow_add]
          ring
        rwa [hjoin]

theorem big?_represents (h : ∀ x ∈ d.digits, x < 10) :
    ∃ w, big? d = some w ∧ w.Represents d.mantissa := by
  obtain ⟨w, hw, hrep⟩ := bigFrom?_represents (Limbs.ofNat64_represents (n := 0) (by decide)) h
  rw [Nat.zero_mul, Nat.zero_add] at hrep
  refine ⟨w, ?_, hrep⟩
  unfold big?
  rw [bind_of_some (CheckedLimbs.ofNat64?_eq 0), hw]

theorem big?_eq (h : ∀ x ∈ d.digits, x < 10) : big? d = some d.limbs := by
  obtain ⟨w, hw, hrep⟩ := big?_represents h
  rw [hw, (hrep.eq_iff (Decimal.limbs_represents h)).2 rfl]

/-! ## Sizes -/

/-- The decimal is of neither cut-off, and has no more digits than can be counted in bits. -/
structure Sized (fmt : FloatFormat) (d : Decimal) : Prop where
  normal : d.Normal
  length_le : d.digits.length ≤ 2 ^ 28
  notLarge : d.places - 1 ≤ fmt.maxPlaces
  notSmall : fmt.minPlaces ≤ d.places

theorem Sized.exp_bounds (h : Sized fmt d) :
    -2 ^ 13 < d.digits.length + d.exp ∧ d.digits.length + d.exp < 2 ^ 13 :=
  Decimal.exp_bounds_of_places h.notLarge h.notSmall

theorem Sized.natAbs_exp_lt (h : Sized fmt d) : d.exp.natAbs < 2 ^ 28 + 2 ^ 13 := by
  have hlength := h.length_le
  have hbounds := h.exp_bounds
  omega

theorem ten_pow_le (n : ℕ) : 10 ^ n ≤ 2 ^ (4 * n) := by
  rw [pow_mul]
  exact Nat.pow_le_pow_left (by decide) n

theorem size_ten_pow_le (n : ℕ) : Nat.size (10 ^ n) ≤ 4 * n + 1 :=
  Nat.size_le.2 ((ten_pow_le n).trans_lt (Nat.pow_lt_pow_right (by decide) (Nat.lt_succ_self _)))

theorem size_mantissa_le (h : d.Normal) : Nat.size d.mantissa ≤ 4 * d.digits.length :=
  Nat.size_le.2 (h.mantissa_lt.trans_le (ten_pow_le _))

theorem size_ten_pow_mul_le (h : d.Normal) (n : ℕ) :
    Nat.size (10 ^ n * d.mantissa) ≤ 4 * (d.digits.length + n) := by
  rw [Nat.size_le, Nat.mul_comm, Nat.mul_add, pow_add]
  exact Nat.mul_lt_mul_of_lt_of_le (h.mantissa_lt.trans_le (ten_pow_le _)) (ten_pow_le n)
    (Nat.two_pow_pos _)

/-! ## Products -/

/-- Past the cut-offs a product is short, and 126 bits of it are kept. -/
theorem Sized.product?_eq (h : Sized fmt d) (hexp : 0 ≤ d.exp) (negative : Bool) :
    product? d d.exp.natAbs negative = some (d.product negative) := by
  have hbounds := h.exp_bounds
  have hdigits := h.normal.digits_lt
  have htoNat : d.exp.natAbs = d.exp.toNat := by omega
  have hlimbs := Decimal.limbs_represents hdigits
  have hw := hlimbs.mulPow10 d.exp.toNat
  have hsize := size_ten_pow_mul_le h.normal d.exp.toNat
  have hlt := Nat.lt_size_self (10 ^ d.exp.toNat * d.mantissa)
  unfold product? Decimal.product
  rw [htoNat, bind_of_some (big?_eq hdigits), bind_of_some (CheckedLimbs.mulPow10?_eq hlimbs _),
    bind_of_some (CheckedLimbs.bitLength?_eq hw (by omega))]
  dsimp only
  rw [hw.bitLength]
  generalize Nat.size (10 ^ d.exp.toNat * d.mantissa) = bits at *
  rw [bind_of_some (sum?_of_lt (by omega)), bind_of_some (difference?_of_le (by omega)),
    bind_of_some (CheckedLimbs.splitAtBit?_eq hw
      (hlt.trans_le (Nat.pow_le_pow_right (by decide) (by omega)))), Limbs.splitAtBit_eq hw.toNat_eq]
  dsimp only
  rw [bind_of_some (exponent?_of_bounds (by omega) (by omega))]

end MachineNumbers.CheckedDecimal
