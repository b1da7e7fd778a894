import Mathlib
import MachineNumbers.Proofs.Outcome.Product
import MachineNumbers.Proofs.Outcome.Quotient
import MachineNumbers.Proofs.Outcome.Remainder
import MachineNumbers.Proofs.Outcome.SquareRoot
import MachineNumbers.Proofs.Outcome.Sum

/-!
# How any operation ends

Every operation ends in one of the ways of `Outcome`, so laws of all operations follow by cases on the
outcome.
-/

namespace MachineNumbers

open BinaryFloat

namespace Operation

variable {fmt : FloatFormat}

/-- A NaN operand goes before anything else. -/
theorem eval_of_propagated {op : Operation fmt} {n : BinaryFloat fmt}
    (hnan : propagatedNaN? op.operands = some n) (mode : SubnormalMode) : op.eval mode = n := by
  cases op with
  | add x y => simp [eval, BinaryFloat.add, show propagatedNaN? [x, y] = some n from hnan]
  | sub x y => simp [eval, BinaryFloat.sub, show propagatedNaN? [x, y] = some n from hnan]
  | mul x y => simp [eval, BinaryFloat.mul, show propagatedNaN? [x, y] = some n from hnan]
  | div x y => simp [eval, BinaryFloat.div, show propagatedNaN? [x, y] = some n from hnan]
  | truncatingRemainder x y =>
    simp [eval, BinaryFloat.truncatingRemainder, remainderSpecial?,
      show propagatedNaN? [x, y] = some n from hnan]
  | remainder x y =>
    simp [eval, BinaryFloat.remainder, remainderSpecial?,
      show propagatedNaN? [x, y] = some n from hnan]
  | addProduct x y z =>
    simp [eval, BinaryFloat.addProduct, show propagatedNaN? [x, y, z] = some n from hnan]
  | squareRoot x =>
    have hx : x.isNaN = true := by
      by_contra hx
      have h : propagatedNaN? [x] = some n := hnan
      simp [propagatedNaN?, hx] at h
    have hn : x.quieted = n := by simpa [propagatedNaN?, operands, hx] using hnan
    simp [eval, BinaryFloat.squareRoot, hx, hn]

/-- Every operation ends in one of these ways. -/
theorem exists_outcome (op : Operation fmt) : ∃ f, op.EndsAs f := by
  cases hnan : propagatedNaN? op.operands with
  | some n => exact ⟨_, .propagated hnan, fun mode _ => eval_of_propagated hnan mode⟩
  | none =>
    cases op with
    | add x y => exact add_endsAs hnan
    | sub x y => exact sub_endsAs hnan
    | mul x y => exact mul_endsAs hnan
    | div x y => exact div_endsAs hnan
    | truncatingRemainder x y => exact truncatingRemainder_endsAs hnan
    | remainder x y => exact remainder_endsAs hnan
    | addProduct x y z => exact addProduct_endsAs hnan
    | squareRoot x => exact squareRoot_endsAs hnan

end Operation

end MachineNumbers
