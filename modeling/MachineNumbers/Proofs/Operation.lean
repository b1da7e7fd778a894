import Mathlib
import MachineNumbers.BinaryFloat.Arithmetic.Product
import MachineNumbers.BinaryFloat.Arithmetic.Quotient
import MachineNumbers.BinaryFloat.Arithmetic.Remainder
import MachineNumbers.BinaryFloat.Arithmetic.SquareRoot
import MachineNumbers.Proofs.Arithmetic.Remainder
import MachineNumbers.Proofs.Nearest

/-!
# Arithmetic operations with their operands

An `Operation` is one of the eight operations within a format, together with its operands, so that a law of
arithmetic is one statement about all of them.  `Operation.eval` computes it in a mode;
`Operation.exactResult?` is its result on real numbers, where the operands are finite and there is one, and
`Operation.Invalid` says where there is no result at all, not even an infinite one.
-/

namespace MachineNumbers

open BinaryFloat

/-- An operation and its operands. -/
inductive Operation (fmt : FloatFormat) where
  | add (x y : BinaryFloat fmt)
  | sub (x y : BinaryFloat fmt)
  | mul (x y : BinaryFloat fmt)
  | div (x y : BinaryFloat fmt)
  | truncatingRemainder (x y : BinaryFloat fmt)
  | remainder (x y : BinaryFloat fmt)
  | addProduct (x y z : BinaryFloat fmt)
  | squareRoot (x : BinaryFloat fmt)

namespace Operation

variable {fmt : FloatFormat}

def eval (mode : SubnormalMode) : Operation fmt → BinaryFloat fmt
  | add x y => x.add mode y
  | sub x y => x.sub mode y
  | mul x y => x.mul mode y
  | div x y => x.div mode y
  | truncatingRemainder x y => x.truncatingRemainder mode y
  | remainder x y => x.remainder mode y
  | addProduct x y z => x.addProduct mode y z
  | squareRoot x => x.squareRoot mode

/-- The operands, in the order in which NaNs go first. -/
def operands : Operation fmt → List (BinaryFloat fmt)
  | add x y | sub x y | mul x y | div x y | truncatingRemainder x y | remainder x y => [x, y]
  | addProduct x y z => [x, y, z]
  | squareRoot x => [x]

def map (f : BinaryFloat fmt → BinaryFloat fmt) : Operation fmt → Operation fmt
  | add x y => add (f x) (f y)
  | sub x y => sub (f x) (f y)
  | mul x y => mul (f x) (f y)
  | div x y => div (f x) (f y)
  | truncatingRemainder x y => truncatingRemainder (f x) (f y)
  | remainder x y => remainder (f x) (f y)
  | addProduct x y z => addProduct (f x) (f y) (f z)
  | squareRoot x => squareRoot (f x)

theorem operands_map (f : BinaryFloat fmt → BinaryFloat fmt) (op : Operation fmt) :
    (op.map f).operands = op.operands.map f := by
  cases op <;> rfl

/-- The exact result on finite operands; no number is the quotient or a remainder by zero, and none is the
root of a negative number. -/
noncomputable def exactResult? (op : Operation fmt) : Option ℝ :=
  if op.operands.all isFinite then
    match op with
    | add x y => some (x.value + y.value : ℚ)
    | sub x y => some (x.value - y.value : ℚ)
    | mul x y => some (x.value * y.value : ℚ)
    | div x y => if y.value = 0 then none else some (x.value / y.value : ℚ)
    | truncatingRemainder x y =>
      if y.value = 0 then none
      else some (x.value - truncated (x.value / y.value) * y.value : ℚ)
    | remainder x y =>
      if y.value = 0 then none
      else some (x.value - nearestEven (x.value / y.value) * y.value : ℚ)
    | addProduct x y z => some (x.value + y.value * z.value : ℚ)
    | squareRoot x => if x.value < 0 then none else some √x.value
  else none

/-- The operation has no result on these operands, none of them a NaN: infinities cancel, an infinity is
multiplied by a zero, zero is divided by zero or infinity by infinity, a remainder of an infinity or by a
zero is asked for, or the root of a negative number that is not a zero. -/
def Invalid (mode : SubnormalMode) : Operation fmt → Prop
  | add x y => x.isInfinite = true ∧ y.isInfinite = true ∧ x.sign ≠ y.sign
  | sub x y => x.isInfinite = true ∧ y.isInfinite = true ∧ x.sign = y.sign
  | mul x y =>
    (x.isInfinite = true ∧ y.readsAsZero mode = true) ∨
      (x.readsAsZero mode = true ∧ y.isInfinite = true)
  | div x y =>
    (x.readsAsZero mode = true ∧ y.readsAsZero mode = true) ∨
      (x.isInfinite = true ∧ y.isInfinite = true)
  | truncatingRemainder x y | remainder x y => x.isInfinite = true ∨ y.readsAsZero mode = true
  | addProduct x y z =>
    (y.isInfinite = true ∧ z.readsAsZero mode = true) ∨
      (y.readsAsZero mode = true ∧ z.isInfinite = true) ∨
      (x.isInfinite = true ∧ (y.isInfinite = true ∨ z.isInfinite = true) ∧
        x.sign ≠ (y.sign != z.sign))
  | squareRoot x => x.sign = true ∧ x.readsAsZero mode = false

/-- The exact result is one of numbers only. -/
theorem exactResult?_eq_none {op : Operation fmt} {x : BinaryFloat fmt} (hx : x ∈ op.operands)
    (h : x.isFinite = false) : op.exactResult? = none := by
  unfold exactResult?
  rw [if_neg]
  intro hall
  rw [List.all_eq_true.1 hall x hx] at h
  cases h

end Operation

end MachineNumbers
