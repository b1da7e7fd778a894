import MachineNumbers.BinaryFloat.Unpacked

/-!
# Digits of a magnitude

A magnitude `sig × 2^exp` as the target of digits `0.d₁d₂…dₙ × 10^point`.
-/

namespace MachineNumbers

/-- A magnitude whose digits are wanted. -/
structure DigitTarget where
  sig : Nat
  exp : Int
  /-- The magnitude below is nearer than the one above. -/
  lowerCloser : Bool
  deriving DecidableEq, Repr

/-- The digits of a decimal fraction, first digit first, and the place of its point. -/
structure DigitString where
  digits : List Nat
  point : Int
  deriving DecidableEq, Repr

namespace DigitTarget

/-- The magnitude of a finite nonzero float.  Only a power of two above the least normal has its lower
neighbour in a finer binade. -/
def ofFloat {fmt : FloatFormat} (x : BinaryFloat fmt) : DigitTarget :=
  let a := x.unpack .gradual
  ⟨a.sig, a.exp, x.fractionField == 0 && 1 < x.exponentField⟩

end DigitTarget

namespace DigitString

/-- The digits, given last digit first, without trailing zeros; one digit stays. -/
def stripTrailing : List Nat → List Nat
  | 0 :: d :: ds => stripTrailing (d :: ds)
  | ds => ds

def normalised (s : DigitString) : DigitString :=
  { s with digits := (stripTrailing s.digits.reverse).reverse }

end DigitString

end MachineNumbers
