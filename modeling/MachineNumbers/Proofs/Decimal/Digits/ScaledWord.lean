import Mathlib
import MachineNumbers.Decimal.Digits.ScaledWord
import MachineNumbers.Proofs.Bits
import MachineNumbers.Proofs.Positional

/-!
# Errors of numbers of one word

Every entry of the table is a power of ten to the nearest word (`isPower_of_mem`).  A product is rounded to
a word too, so a product by a power of ten is off by less than one unit in its last place (`dist_mul_lt`).
The entry that is looked up brings a normalised number to a scaled exponent (`powerFor?_spec`).
-/

namespace MachineNumbers.ScaledWord

def value (x : ScaledWord) : ℚ := x.f * 2 ^ x.e

/-- At one exponent words are in the order of their numbers. -/
theorem f_lt_of_value {x y : ScaledWord} (he : x.e = y.e) (h : x.value < y.value) : x.f < y.f := by
  unfold value at h
  rw [he] at h
  exact_mod_cast lt_of_mul_lt_mul_right h (by positivity)

/-! ## Normalised words -/

theorem normalised_value (x : ScaledWord) : x.normalised.value = x.value := shiftLeft_mul_zpow _ _ _

theorem normalised_bounds {x : ScaledWord} (h0 : 0 < x.f) (hlt : x.f < 2 ^ 64) :
    2 ^ 63 ≤ x.normalised.f ∧ x.normalised.f < 2 ^ 64 := by
  have hlog : x.f.log2 < 64 := (Nat.log2_lt h0.ne').2 hlt
  exact shiftLeft_sub_bounds h0.ne' (Nat.le_of_lt_succ hlog)

/-! ## Products in order -/

theorem mul_f_eq (x y : ScaledWord) : (x.mul y).f = (x.f * y.f + 2 ^ 63) / 2 ^ 64 := by
  unfold mul
  simp only [Nat.pow_eq]
  omega

theorem mul_f_lt_word {x y : ScaledWord} (hx : x.f < 2 ^ 64) (hy : y.f < 2 ^ 64) :
    (x.mul y).f < 2 ^ 64 := by
  have hproduct : x.f * y.f ≤ (2 ^ 64 - 1) * (2 ^ 64 - 1) :=
    Nat.mul_le_mul (Nat.le_sub_one_of_lt hx) (Nat.le_sub_one_of_lt hy)
  rw [mul_f_eq]
  omega

theorem mul_f_mono {x y : ScaledWord} (h : x.f ≤ y.f) (c : ScaledWord) : (x.mul c).f ≤ (y.mul c).f := by
  rw [mul_f_eq, mul_f_eq]
  exact Nat.div_le_div_right (Nat.add_le_add_right (Nat.mul_le_mul_right _ h) _)

/-- A word with its top bit set is half a unit of the product, so words two apart stay apart. -/
theorem mul_f_strict {x y c : ScaledWord} (h : x.f + 2 ≤ y.f) (hc : 2 ^ 63 ≤ c.f) :
    (x.mul c).f < (y.mul c).f := by
  have hproduct : (x.f + 2) * c.f ≤ y.f * c.f := Nat.mul_le_mul_right _ h
  rw [Nat.add_mul] at hproduct
  rw [mul_f_eq, mul_f_eq]
  omega

/-! ## Rounding to a word -/

/-- Within half of a quotient, in whole numbers. -/
theorem dist_le_half_iff (f top : ℕ) {bottom : ℕ} (h : 0 < bottom) :
    |(f : ℚ) - top / bottom| ≤ 1 / 2 ↔
      2 * f * bottom ≤ 2 * top + bottom ∧ 2 * top ≤ 2 * f * bottom + bottom := by
  have hb : (0 : ℚ) < bottom := by exact_mod_cast h
  have habove : (f : ℚ) - top / bottom ≤ 1 / 2 ↔ (2 * f * bottom : ℚ) ≤ 2 * top + bottom := by
    rw [sub_le_iff_le_add, ← mul_le_mul_iff_of_pos_right hb, add_mul, div_mul_cancel₀ _ hb.ne']
    constructor <;> intro hle <;> linarith
  have hbelow : -(1 / 2) ≤ (f : ℚ) - top / bottom ↔ (2 * top : ℚ) ≤ 2 * f * bottom + bottom := by
    rw [le_sub_iff_add_le', ← sub_eq_add_neg, sub_le_iff_le_add, ← mul_le_mul_iff_of_pos_right hb,
      add_mul, div_mul_cancel₀ _ hb.ne']
    constructor <;> intro hle <;> linarith
  rw [abs_le, hbelow, habove, and_comm]
  norm_cast

/-- A quotient rounded half up is off by half at most. -/
theorem dist_rounded_le (top : ℕ) {bottom : ℕ} (h : 0 < bottom) :
    |(((2 * top + bottom) / (2 * bottom) : ℕ) : ℚ) - top / bottom| ≤ 1 / 2 := by
  have hlow := Nat.div_mul_le_self (2 * top + bottom) (2 * bottom)
  have hhigh := Nat.lt_mul_div_succ (2 * top + bottom) (by omega : 0 < 2 * bottom)
  rw [dist_le_half_iff _ _ h]
  constructor
  · linarith
  · linarith

/-- The power `10^k` to the nearest word with its top bit set. -/
structure IsPower (x : ScaledWord) (k : ℤ) : Prop where
  top_le : 2 ^ 63 ≤ x.f
  lt_word : x.f < 2 ^ 64
  dist_le : |(x.f : ℚ) - 10 ^ k / 2 ^ x.e| ≤ 1 / 2

/-- A product by a power of ten is off by less than one unit. -/
theorem dist_mul_lt {x c : ScaledWord} {k : ℤ} (hx : x.f < 2 ^ 64) (hc : c.IsPower k) :
    |((x.mul c).f : ℚ) - x.value * 10 ^ k / 2 ^ (x.mul c).e| < 1 := by
  have hround : (x.mul c).f = (2 * (x.f * c.f) + 2 ^ 64) / (2 * 2 ^ 64) := by
    rw [mul_f_eq]
    omega
  have hfirst := dist_rounded_le (x.f * c.f) (by decide : 0 < 2 ^ 64)
  have hexact : x.value * 10 ^ k / 2 ^ (x.mul c).e = x.f * (10 ^ k / 2 ^ c.e) / 2 ^ 64 := by
    unfold value mul
    rw [zpow_add₀ (by norm_num), zpow_add₀ (by norm_num)]
    field_simp
  have hpower := hc.dist_le
  rw [← hround] at hfirst
  rw [hexact]
  generalize (10 : ℚ) ^ k / 2 ^ c.e = power at hpower
  have hx' : (x.f : ℚ) < 2 ^ 64 := by exact_mod_cast hx
  have hx0 : (0 : ℚ) ≤ x.f := by positivity
  have hsecond : |(x.f * c.f : ℚ) / 2 ^ 64 - x.f * power / 2 ^ 64| < 1 / 2 := by
    rw [← sub_div, ← mul_sub, abs_div, abs_mul, abs_of_nonneg hx0,
      abs_of_pos (by positivity : (0 : ℚ) < 2 ^ 64), div_lt_iff₀ (by positivity)]
    calc x.f * |(c.f : ℚ) - power| ≤ x.f * (1 / 2) := mul_le_mul_of_nonneg_left hpower hx0
      _ < 1 / 2 * 2 ^ 64 := by linarith
  push_cast at hfirst
  calc |((x.mul c).f : ℚ) - x.f * power / 2 ^ 64|
      ≤ |((x.mul c).f : ℚ) - x.f * c.f / 2 ^ 64| + |(x.f * c.f : ℚ) / 2 ^ 64 - x.f * power / 2 ^ 64| :=
        abs_sub_le _ _ _
    _ < 1 := by linarith

/-! ## The table of powers -/

/-- The whole table at once, in whole numbers. -/
theorem powers_checked : ∀ entry ∈ powers, 2 ^ 63 ≤ entry.1.f ∧ entry.1.f < 2 ^ 64 ∧
    2 * entry.1.f * (10 ^ (-entry.2).toNat * 2 ^ entry.1.e.toNat) ≤
      2 * (10 ^ entry.2.toNat * 2 ^ (-entry.1.e).toNat) + 10 ^ (-entry.2).toNat * 2 ^ entry.1.e.toNat ∧
    2 * (10 ^ entry.2.toNat * 2 ^ (-entry.1.e).toNat) ≤
      2 * entry.1.f * (10 ^ (-entry.2).toNat * 2 ^ entry.1.e.toNat) +
        10 ^ (-entry.2).toNat * 2 ^ entry.1.e.toNat := by
  decide +kernel

/-- Every entry is a power of ten to the nearest word. -/
theorem isPower_of_mem {x : ScaledWord} {k : ℤ} (h : (x, k) ∈ powers) : x.IsPower k := by
  obtain ⟨htop, hword, hbelow, habove⟩ := powers_checked _ h
  have hquot : (10 : ℚ) ^ k / 2 ^ x.e =
      ((10 ^ k.toNat * 2 ^ (-x.e).toNat : ℕ) : ℚ) / (10 ^ (-k).toNat * 2 ^ x.e.toNat : ℕ) := by
    push_cast
    rw [Positional.pow_toNat (by norm_num) k, Positional.pow_toNat (by norm_num) x.e]
    field_simp
  refine ⟨htop, hword, ?_⟩
  rw [hquot, dist_le_half_iff _ _ (by positivity)]
  exact ⟨hbelow, habove⟩

/-- The powers go up by the same step, and each lies where the estimate of its index needs it. -/
theorem powers_placed : ∀ entry ∈ powers.zipIdx, entry.1.2 = firstPower + powerStep * entry.2 ∧
    entry.1.2 * 262144 < (entry.1.1.e + 64) * 78913 ∧
    (entry.1.1.e + 34) * 78913 ≤ (entry.1.2 - powerStep) * 262144 := by
  decide +kernel

/-- The power for a normalised number brings it to a scaled exponent. -/
theorem powerFor?_spec {e k : ℤ} {power : ScaledWord} (h : powerFor? e = some (power, k)) :
    power.IsPower k ∧ minScaled ≤ e + power.e + 64 ∧ e + power.e + 64 ≤ maxScaled := by
  obtain ⟨i, hindex, hentry⟩ := Option.bind_eq_some_iff.1 h
  have hplace : powerIndex e = i := Int.mem_toNat?.1 hindex
  have hmem : ((power, k), i) ∈ powers.zipIdx := List.mem_zipIdx_iff_getElem?.2 hentry
  obtain ⟨hk, hlow, hhigh⟩ := powers_placed _ hmem
  refine ⟨isPower_of_mem (List.mem_of_getElem? hentry), ?_⟩
  simp only [firstPower, powerStep, powerIndex, minScaled, maxScaled] at *
  omega

end MachineNumbers.ScaledWord
