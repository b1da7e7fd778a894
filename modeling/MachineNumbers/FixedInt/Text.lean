import MachineNumbers.BitPattern.Text
import MachineNumbers.FixedInt.Basic

/-! # Integers as text -/

namespace MachineNumbers.FixedInt

variable {ty : IntType}

/-- The value in decimal, laid out in a field. -/
def formatDecimal (layout : FieldLayout) (a : FixedInt ty) : String :=
  let sign := if a.value < 0 then "-" else if layout.plusSign then "+" else ""
  layout.place sign (Positional.numeral 10 false a.value.natAbs)

def toDecimal (a : FixedInt ty) : String := a.formatDecimal .plain

/-- The pattern in a radix, laid out in a field. -/
def formatPattern (radix : PatternRadix) (layout : FieldLayout) (a : FixedInt ty) : String :=
  a.bits.format radix layout

end MachineNumbers.FixedInt
