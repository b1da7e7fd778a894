import MachineNumbers.BitPattern
import MachineNumbers.Text.Field
import MachineNumbers.Text.Positional

/-! # Bit patterns as text -/

namespace MachineNumbers

/-- The radices that patterns are written in. -/
inductive PatternRadix where
  | binary
  | octal
  | lowerHex
  | upperHex
  deriving DecidableEq, Repr

namespace PatternRadix

def base : PatternRadix → Nat
  | binary => 2
  | octal => 8
  | lowerHex => 16
  | upperHex => 16

/-- What stands before the digits when a radix mark is asked for. -/
def mark : PatternRadix → String
  | binary => "0b"
  | octal => "0o"
  | lowerHex => "0x"
  | upperHex => "0x"

def numeral (radix : PatternRadix) (n : Nat) : String :=
  Positional.numeral radix.base (radix == upperHex) n

end PatternRadix

namespace BitPattern

variable {w : Nat}

/-- The pattern in a radix, laid out in a field. -/
def format (radix : PatternRadix) (layout : FieldLayout) (p : BitPattern w) : String :=
  layout.place (if layout.radixMark then radix.mark else "") (radix.numeral p.toNat)

/-- The pattern for inspection: all its bits under its name. -/
def debug (p : BitPattern w) : String :=
  let bits := p.format .binary { FieldLayout.plain with width := w, zeroPadded := true }
  "BitPattern(0b" ++ bits ++ ")"

end BitPattern

end MachineNumbers
