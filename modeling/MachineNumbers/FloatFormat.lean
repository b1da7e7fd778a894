import MachineNumbers.WordWidth

/-!
# Binary interchange formats

With the sign bit, the exponent and fraction fields of a format fill a machine word.
-/

namespace MachineNumbers

/-- The widths of the two fields beside the sign bit, within the supported bounds. -/
structure FloatFormat where
  exponentBits : Nat
  fractionBits : Nat
  two_le_exponentBits : 2 ≤ exponentBits := by decide
  exponentBits_le : exponentBits ≤ 15 := by decide
  one_le_fractionBits : 1 ≤ fractionBits := by decide
  fractionBits_le : fractionBits ≤ 52 := by decide
  isWordWidth : IsWordWidth (1 + exponentBits + fractionBits) := by decide
  deriving DecidableEq

namespace FloatFormat

/-- Half, single and double precision. -/
def binary16 : FloatFormat := { exponentBits := 5, fractionBits := 10 }

@[inherit_doc binary16]
def binary32 : FloatFormat := { exponentBits := 8, fractionBits := 23 }

@[inherit_doc binary16]
def binary64 : FloatFormat := { exponentBits := 11, fractionBits := 52 }

def radix : Nat := 2

variable (fmt : FloatFormat)

/-- Bits of the whole encoding. -/
def width : Nat := 1 + fmt.exponentBits + fmt.fractionBits

/-- Significant bits of a normal number: the fraction and the hidden bit. -/
def precision : Nat := fmt.fractionBits + 1

/-- What the exponent field of `1` holds. -/
def bias : Nat := Nat.pow 2 (fmt.exponentBits - 1) - 1

/-- Exponent of the leading bit of the greatest finite numbers. -/
def maxLead : Int := fmt.bias

/-- Exponent of the leading bit of the least normal numbers. -/
def minLead : Int := 1 - fmt.bias

/-- Exponent of the last bit of a subnormal number. -/
def minExp : Int := fmt.minLead - fmt.fractionBits

/-- The exponent field of infinities and NaNs, all ones. -/
def exponentMask : Nat := Nat.pow 2 fmt.exponentBits - 1

/-- The fraction field with every bit set. -/
def fractionMask : Nat := Nat.pow 2 fmt.fractionBits - 1

/-- The leading bit of a normal significand, which the encoding leaves out. -/
def hiddenBit : Nat := Nat.pow 2 fmt.fractionBits

/-- The top fraction bit, which a quiet NaN has set. -/
def quietBit : Nat := Nat.pow 2 (fmt.fractionBits - 1)

def infinityWord : Nat := fmt.exponentMask * Nat.pow 2 fmt.fractionBits

/-- The weight of the sign bit; every encoding without it is less. -/
def signWeight : Nat := Nat.pow 2 (fmt.exponentBits + fmt.fractionBits)

/-- The largest payload of a NaN: the fraction bits below the two that tell quiet from signaling. -/
def maxPayload : Nat := fmt.quietBit / 2 - 1

/-- The encoding of `2^e`, for exponents from `minExp` to `maxLead`. -/
def powerOfTwoWord (e : Int) : Nat :=
  if fmt.minLead ≤ e then (e + fmt.bias).toNat * Nat.pow 2 fmt.fractionBits
  else Nat.pow 2 (e - fmt.minExp).toNat

theorem signWeight_pos : 0 < fmt.signWeight := Nat.two_pow_pos _

theorem two_mul_signWeight : 2 * fmt.signWeight = Nat.pow 2 fmt.width := by
  simp only [signWeight, width, Nat.pow_eq, Nat.add_assoc, Nat.pow_add, Nat.pow_one]

end FloatFormat

end MachineNumbers
