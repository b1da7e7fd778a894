import Mathlib
import MachineNumbers.Proofs.FixedInt.Arithmetic

/-!
# Sums, differences and products

These always have an exact result, so that overflow is all that can stop them: `wrapping` wraps it
(`wrapping_eq`) and `trapping` gives it if it fits (`trapping_eq`).
-/

namespace MachineNumbers

/-- The operations of a ring. -/
inductive RingOp where
  | add
  | sub
  | mul
  deriving DecidableEq

namespace RingOp

def arithOp : RingOp → ArithOp
  | add => .add
  | sub => .sub
  | mul => .mul

def apply : RingOp → ℤ → ℤ → ℤ
  | add, a, b => a + b
  | sub, a, b => a - b
  | mul, a, b => a * b

theorem exact_arithOp (op : RingOp) (a b : ℤ) : op.arithOp.exact a b = .ok (op.apply a b) := by
  cases op <;> rfl

/-- The operations respect residues. -/
theorem apply_modEq (op : RingOp) {n a b c d : ℤ} (hac : a ≡ c [ZMOD n]) (hbd : b ≡ d [ZMOD n]) :
    op.apply a b ≡ op.apply c d [ZMOD n] := by
  cases op with
  | add => exact hac.add hbd
  | sub => exact hac.sub hbd
  | mul => exact hac.mul hbd

end RingOp

namespace FixedInt

variable {ty : IntType}

/-- Wrapping arithmetic is the exact result with its residue stored. -/
theorem wrapping_eq (op : RingOp) (a b : FixedInt ty) :
    wrapping op.arithOp a b = .ok (wrap (op.apply a.value b.value)) := by
  unfold wrapping
  rw [overflowing_of_exact (op.exact_arithOp a.value b.value)]
  rfl

theorem wrappingNeg_eq (a : FixedInt ty) : wrappingNeg a = wrap (-a.value) := by
  have hwide : (-a.wide).toInt = -a.value := by
    rw [BitVec.toInt_neg_of_ne_intMin a.wide_ne_intMin, toInt_wide]
  unfold wrappingNeg overflowingNeg
  rw [reduced_eq hwide]

/-- Trapping arithmetic is the exact result, or an error when that does not fit. -/
theorem trapping_eq (op : RingOp) (a b : FixedInt ty) : trapping op.arithOp a b =
    if ty.Fits (op.apply a.value b.value) then .ok (wrap (op.apply a.value b.value))
    else .error .arithmetic := by
  have hflag : op.arithOp.Overflows ty a.value b.value (op.apply a.value b.value) ↔
      ¬ty.Fits (op.apply a.value b.value) := by
    cases op <;> simp [ArithOp.Overflows, RingOp.arithOp]
  unfold trapping
  rw [overflowing_of_exact (op.exact_arithOp a.value b.value)]
  by_cases h : ty.Fits (op.apply a.value b.value)
  · simp [hflag, h]
  · simp [hflag, h]

theorem trapping_add (a b : FixedInt ty) : trapping .add a b =
    if ty.Fits (a.value + b.value) then .ok (wrap (a.value + b.value)) else .error .arithmetic :=
  trapping_eq .add a b

theorem trapping_mul (a b : FixedInt ty) : trapping .mul a b =
    if ty.Fits (a.value * b.value) then .ok (wrap (a.value * b.value)) else .error .arithmetic :=
  trapping_eq .mul a b

end FixedInt

end MachineNumbers
