import MachineNumbers.BinaryFloat.Unpacked

/-!
# Sums and differences

Two numbers are aligned on 128-bit significands; the bits that fall off are reported.
-/

namespace MachineNumbers

/-- The sum of two nonzero numbers as a number and whether it exceeds that by less than one unit.
An exact zero is positive. -/
def Unpacked.add (x y : Unpacked) : Unpacked × Bool :=
  let x := x.normalised
  let y := y.normalised
  -- of normalised numbers, the greater exponent or else the greater significand is the greater
  let xFirst := y.exp < x.exp ∨ (y.exp = x.exp ∧ y.sig ≤ x.sig)
  let (big, small) := if xFirst then (x, y) else (y, x)
  let shift := (big.exp - small.exp).toNat
  let (aligned, lost) :=
    if 128 ≤ shift then (0, true) else (small.sig >>> shift, small.sig % Nat.pow 2 shift != 0)
  -- what a difference loses of `small` is borrowed, so that the excess is positive again
  let sig := if big.sign = small.sign then big.sig + aligned else big.sig - aligned - lost.toNat
  (⟨big.sign && sig != 0, big.exp, sig⟩, lost)

namespace BinaryFloat

variable {fmt : FloatFormat}

/-- The sum, rounded once.  Opposite infinities have none; a zero sum is positive unless both
operands are negative zeros. -/
def add (mode : SubnormalMode) (x y : BinaryFloat fmt) : BinaryFloat fmt :=
  match propagatedNaN? [x, y] with
  | some nan => nan
  | none =>
    if x.isInfinite then if y.isInfinite && y.sign != x.sign then nan else x
    else if y.isInfinite then y
    else
      let a := x.unpack mode
      let b := y.unpack mode
      if a.sig = 0 then if b.sig = 0 then zero (a.sign && b.sign) else roundPack mode b false
      else if b.sig = 0 then roundPack mode a false
      else
        let (sum, sticky) := a.add b
        roundPack mode sum sticky

/-- The difference, rounded once; a NaN operand keeps its sign. -/
def sub (mode : SubnormalMode) (x y : BinaryFloat fmt) : BinaryFloat fmt :=
  match propagatedNaN? [x, y] with
  | some nan => nan
  | none => x.add mode (-y)

instance : Add (BinaryFloat fmt) := ⟨add .native⟩

instance : Sub (BinaryFloat fmt) := ⟨sub .native⟩

end BinaryFloat

end MachineNumbers
