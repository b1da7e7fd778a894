import MachineNumbers.BinaryFloat.Basic

/-!
# Unpacked numbers and their rounding

`BinaryFloat.roundPack` is the one place where numbers become floats: to nearest, ties to the even word.
The last bit kept has the exponent `lastExp`, and with `kept` the significand there, the word is
`(lastExp - minExp) × 2^fractionBits + kept`.  The hidden bit of `kept` counts the exponent field up by one,
and so does a carry out of rounding; from the word of infinity on the result is infinite.
-/

namespace MachineNumbers

/-- The number `±sig × 2^exp`. -/
structure Unpacked where
  sign : Bool
  exp : Int
  sig : Nat
  deriving DecidableEq, Repr

namespace Unpacked

/-- The place of the leading bit of a normalised significand; two bits of a 128-bit word stay free. -/
def leadPlace : Nat := 125

/-- The same nonzero number with its leading bit at `leadPlace`. -/
def normalised (x : Unpacked) : Unpacked :=
  let shift := leadPlace - x.sig.log2
  { x with exp := x.exp - shift, sig := x.sig <<< shift }

/-- The exponent of the leading bit of a nonzero number. -/
def leadExp (x : Unpacked) : Int := x.exp + x.sig.log2

end Unpacked

/-- The exponent of the last bit kept of a number whose leading bit has exponent `lead`. -/
def FloatFormat.lastExp (fmt : FloatFormat) (lead : Int) : Int :=
  max (lead - fmt.fractionBits) fmt.minExp

/-- Whether to round up a kept significand with this last bit and this rest, of `2 × half`. -/
def roundsUp (kept rest half : Nat) (sticky : Bool) : Bool :=
  half < rest || (rest == half && (sticky || kept % 2 == 1))

/-- `sig / 2^shift` to nearest, ties to even; `sticky` adds less than one unit of `sig` to it.
Of 128-bit significands, shifts past 128 leave less than a half. -/
def shiftRightNearest (sig shift : Nat) (sticky : Bool) : Nat :=
  if 128 < shift then 0
  else if shift = 128 then (roundsUp 0 sig (Nat.pow 2 127) sticky).toNat
  else
    let kept := sig >>> shift
    kept + (roundsUp kept (sig % Nat.pow 2 shift) (Nat.pow 2 (shift - 1)) sticky).toNat

/-- The significand of `x` in units of `2^q`, rounded if bits have to go. -/
def Unpacked.significandAt (x : Unpacked) (q : Int) (sticky : Bool) : Nat :=
  if q ≤ x.exp then x.sig <<< (x.exp - q).toNat
  else shiftRightNearest x.sig (q - x.exp).toNat sticky

namespace BinaryFloat

variable {fmt : FloatFormat}

/-- The number of a finite float; subnormals read as zeros when the mode flushes them. -/
def unpack (mode : SubnormalMode) (x : BinaryFloat fmt) : Unpacked :=
  if x.exponentField = 0 then
    ⟨x.sign, fmt.minExp, if mode = .flushToZero then 0 else x.fractionField⟩
  else ⟨x.sign, fmt.minExp + x.exponentField - 1, x.fractionField + fmt.hiddenBit⟩

/-- The float nearest to `x`, or to a number less than one unit beyond it if `sticky` is set.
A mode that flushes gives a zero wherever the leading bit lies below the least normal's. -/
def roundPack (mode : SubnormalMode) (x : Unpacked) (sticky : Bool) : BinaryFloat fmt :=
  if x.sig = 0 then zero x.sign
  else if mode = .flushToZero ∧ x.leadExp < fmt.minLead then zero x.sign
  else
    let q := fmt.lastExp x.leadExp
    let word := (q - fmt.minExp).toNat * Nat.pow 2 fmt.fractionBits + x.significandAt q sticky
    ofWord x.sign (min word fmt.infinityWord)

def repacked (x : BinaryFloat fmt) : BinaryFloat fmt :=
  roundPack .native (x.unpack .native) false

end BinaryFloat

end MachineNumbers
