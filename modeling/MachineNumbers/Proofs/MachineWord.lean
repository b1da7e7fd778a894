import Mathlib
import MachineNumbers.MachineWord
import MachineNumbers.Proofs.Bits

/-!
# Steps in machine words that succeed

Each step gives the exact result where its word holds that, and each bound is stated as the callers have it:
by the number of bits, or by the range of a 32-bit exponent.
-/

namespace MachineNumbers.MachineWord

variable {width m n d amount : ℕ} {e : ℤ}

/-- A step that does not fail goes on with its result. -/
theorem bind_of_some {α β : Type} {step : Option α} {a : α} (h : step = some a)
    (next : α → Option β) : (step >>= next) = next a := by
  rw [h]
  rfl

theorem signed?_of_bounds (hlow : -2 ^ (width - 1) ≤ e) (hhigh : e < 2 ^ (width - 1)) :
    signed? width e = some e := by
  unfold signed?
  rw [if_pos]
  rw [Nat.pow_eq]
  push_cast
  exact ⟨hlow, hhigh⟩

theorem unsigned?_of_lt (h : n < 2 ^ width) : unsigned? width n = some n := if_pos h

theorem unsigned?_of_ge (h : 2 ^ width ≤ n) : unsigned? width n = none := if_neg (Nat.not_lt.2 h)

theorem difference?_of_le (h : n ≤ m) : difference? m n = some (m - n) := if_pos h

theorem sum?_of_lt (h : m + n < 2 ^ width) : sum? width m n = some (m + n) := unsigned?_of_lt h

theorem product?_of_lt (h : m * n < 2 ^ width) : product? width m n = some (m * n) :=
  unsigned?_of_lt h

theorem shiftLeft?_of_lt (hamount : amount < width) (h : n <<< amount < 2 ^ width) :
    shiftLeft? width n amount = some (n <<< amount) := by
  rw [shiftLeft?, if_pos hamount, unsigned?_of_lt h]

/-- A word of few bits can be shifted by what is missing to the width. -/
theorem shiftLeft?_of_bits {bits : ℕ} (hn : n < 2 ^ bits) (hbits : 0 < bits)
    (hamount : bits + amount ≤ width) : shiftLeft? width n amount = some (n <<< amount) := by
  refine shiftLeft?_of_lt (by omega) ?_
  rw [Nat.shiftLeft_eq]
  calc n * 2 ^ amount < 2 ^ bits * 2 ^ amount := Nat.mul_lt_mul_of_pos_right hn (Nat.two_pow_pos _)
    _ = 2 ^ (bits + amount) := (pow_add ..).symm
    _ ≤ 2 ^ width := Nat.pow_le_pow_right (by decide) hamount

theorem shiftLeft?_one (h : amount < width) : shiftLeft? width 1 amount = some (2 ^ amount) := by
  rw [shiftLeft?_of_bits (show 1 < 2 ^ 1 by decide) (by decide) (by omega), Nat.one_shiftLeft]

/-- A significand shifted up to the place of rounding has no more bits than the word. -/
theorem shiftLeft_lt (h0 : n ≠ 0) (h : n.log2 + amount ≤ 127) : n <<< amount < 2 ^ 128 :=
  (shiftLeft_bounds h0 amount).2.trans_le (Nat.pow_le_pow_right (by decide) (by omega))

theorem shiftRight?_of_lt (h : amount < width) (n : ℕ) :
    shiftRight? width n amount = some (n >>> amount) := if_pos h

theorem quotient?_of_pos (h : 0 < d) (n : ℕ) : quotient? n d = some (n / d) := if_neg h.ne'

theorem remainder?_of_pos (h : 0 < d) (n : ℕ) : remainder? n d = some (n % d) := if_neg h.ne'

/-- Masking with the unit less one leaves the remainder. -/
theorem cutAt?_of_lt (h : amount < width) (n : ℕ) :
    cutAt? width n amount = some (n >>> amount, n % 2 ^ amount) := by
  unfold cutAt?
  rw [bind_of_some (shiftRight?_of_lt h n), bind_of_some (shiftLeft?_one h),
    bind_of_some (difference?_of_le (Nat.two_pow_pos _)), Nat.and_two_pow_sub_one_eq_mod]

/-- Half of a unit, for amounts that leave a bit below. -/
theorem halfUnit?_of_le (h0 : 0 < amount) (h : amount ≤ width) :
    halfUnit? width amount = some (2 ^ (amount - 1)) := by
  unfold halfUnit?
  rw [bind_of_some (difference?_of_le h0), shiftLeft?_one (by omega)]

theorem leadingZeros_of_ne (h : n ≠ 0) : leadingZeros n = 127 - n.log2 := if_neg h

/-! ## Exponents -/

theorem exponent?_of_bounds (hlow : -2 ^ 31 ≤ e) (hhigh : e < 2 ^ 31) : exponent? e = some e :=
  signed?_of_bounds hlow hhigh

/-- An exponent that is not negative is a shift amount. -/
theorem amount?_of_bounds (hlow : 0 ≤ e) (hhigh : e < 2 ^ 31) : amount? e = some e.toNat := by
  unfold amount?
  rw [bind_of_some (exponent?_of_bounds (by omega) hhigh)]
  exact Int.mem_toNat?.2 (Int.toNat_of_nonneg hlow).symm

end MachineNumbers.MachineWord
