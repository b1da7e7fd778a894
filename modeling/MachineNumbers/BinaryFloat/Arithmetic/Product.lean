import MachineNumbers.BinaryFloat.Arithmetic.Sum

/-!
# Products and fused sums

A product is exact before it is rounded; a fused sum adds a third number to it first.
-/

namespace MachineNumbers

def Unpacked.mul (x y : Unpacked) : Unpacked :=
  ⟨x.sign != y.sign, x.exp + y.exp, x.sig * y.sig⟩

namespace BinaryFloat

variable {fmt : FloatFormat}

/-- The product, rounded once.  An infinity times what reads as a zero has none. -/
def mul (mode : SubnormalMode) (x y : BinaryFloat fmt) : BinaryFloat fmt :=
  match propagatedNaN? [x, y] with
  | some nan => nan
  | none =>
    let sign := x.sign != y.sign
    if x.isInfinite || y.isInfinite then
      if x.readsAsZero mode || y.readsAsZero mode then nan else infinity sign
    else
      let a := x.unpack mode
      let b := y.unpack mode
      if a.sig = 0 ∨ b.sig = 0 then zero sign else roundPack mode (a.mul b) false

/-- `x + y × z`, rounded once.  NaNs go first, in the order of the operands; then an infinity times
a zero is invalid whatever `x` is, and so are opposite infinities. -/
def addProduct (mode : SubnormalMode) (x y z : BinaryFloat fmt) : BinaryFloat fmt :=
  match propagatedNaN? [x, y, z] with
  | some nan => nan
  | none =>
    let productSign := y.sign != z.sign
    if y.isInfinite || z.isInfinite then
      if y.readsAsZero mode || z.readsAsZero mode then nan
      else if x.isInfinite && x.sign != productSign then nan
      else infinity productSign
    else if x.isInfinite then x
    else
      let a := x.unpack mode
      let b := y.unpack mode
      let c := z.unpack mode
      if b.sig = 0 ∨ c.sig = 0 then
        if a.sig = 0 then zero (a.sign && productSign) else roundPack mode a false
      else if a.sig = 0 then roundPack mode (b.mul c) false
      else
        let (sum, sticky) := a.add (b.mul c)
        roundPack mode sum sticky

instance : Mul (BinaryFloat fmt) := ⟨mul .native⟩

end BinaryFloat

end MachineNumbers
