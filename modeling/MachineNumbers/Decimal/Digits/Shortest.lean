import MachineNumbers.Decimal.Digits.Exact
import MachineNumbers.Decimal.Digits.Fast

/-! # Shortest digits -/

namespace MachineNumbers.DigitTarget

/-- Single words cannot tell the digits. -/
def needsExactDigits (t : DigitTarget) : Bool := t.fastDigits?.isNone

/-- The shortest decimal that rounds to the target, and of these the nearest, without trailing
zeros. -/
def shortest (t : DigitTarget) : DigitString := (t.fastDigits?.getD t.exactDigits).normalised

end MachineNumbers.DigitTarget
