import MachineNumbers.BinaryFloat.Unpacked

/-!
# Quotients

The dividend is normalised, which leaves more bits of the quotient than any format keeps.
-/

namespace MachineNumbers

/-- The quotient of two nonzero numbers as a number and whether it exceeds that by less than one
unit. -/
def Unpacked.div (x y : Unpacked) : Unpacked × Bool :=
  let x := x.normalised
  (⟨x.sign != y.sign, x.exp - y.exp, x.sig / y.sig⟩, x.sig % y.sig != 0)

namespace BinaryFloat

variable {fmt : FloatFormat}

/-- The quotient, rounded once.  A nonzero number by zero is infinite; zero by zero and infinity by
infinity have none. -/
def div (mode : SubnormalMode) (x y : BinaryFloat fmt) : BinaryFloat fmt :=
  match propagatedNaN? [x, y] with
  | some nan => nan
  | none =>
    let sign := x.sign != y.sign
    if x.isInfinite then if y.isInfinite then nan else infinity sign
    else if y.isInfinite then zero sign
    else
      let a := x.unpack mode
      let b := y.unpack mode
      if a.sig = 0 then if b.sig = 0 then nan else zero sign
      else if b.sig = 0 then infinity sign
      else
        let (quotient, sticky) := a.div b
        roundPack mode quotient sticky

instance : Div (BinaryFloat fmt) := ⟨div .native⟩

end BinaryFloat

end MachineNumbers
