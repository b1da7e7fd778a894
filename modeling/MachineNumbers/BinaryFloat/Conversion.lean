import MachineNumbers.BinaryFloat.Unpacked
import MachineNumbers.FixedInt.Basic

/-!
# Conversions of floats

Between formats and from integers by rounding; to integers by truncation toward zero.
-/

namespace MachineNumbers.BinaryFloat

variable {fmt : FloatFormat}

/-- The nearest number of another format.  A NaN keeps its sign and the top of its payload, and is made
quiet. -/
def convert (target : FloatFormat) (mode : SubnormalMode) (x : BinaryFloat fmt) :
    BinaryFloat target :=
  if x.isNaN then
    let payload := x.fractionField * Nat.pow 2 target.fractionBits / Nat.pow 2 fmt.fractionBits
    (ofWord x.sign (target.infinityWord + payload)).quieted
  else if x.isInfinite then infinity x.sign
  else roundPack mode (x.unpack mode) false

/-- The number nearest to an integer. -/
def ofInt (v : Int) : BinaryFloat fmt := roundPack .native ⟨decide (v < 0), 0, v.natAbs⟩ false

/-- The number of zero bits below the lowest one set, among the lowest `count`. -/
def trailingZeroCount (n count : Nat) : Nat :=
  ((List.range count).takeWhile fun i => !n.testBit i).length

/-- An integer is a number of the format: its bits between the highest and the lowest set fit the
precision, and it is below overflow. -/
def holdsExactly (fmt : FloatFormat) (v : Int) : Bool :=
  let n := v.natAbs
  n == 0 || (n.log2 + 1 - trailingZeroCount n (n.log2 + 1) ≤ fmt.precision
    && (n.log2 : Int) ≤ fmt.maxLead)

/-- An integer, if it is a number of the format. -/
def ofIntExactly? (v : Int) : Option (BinaryFloat fmt) :=
  if holdsExactly fmt v then some (ofInt v) else none

/-- A number truncated toward zero, and whether it was an integer; none for what is not finite.  From
`2^64` on every magnitude gives `2^64`, which is past every integer type. -/
def truncated? (x : BinaryFloat fmt) : Option (Int × Bool) :=
  if !x.isFinite then none
  else
    let a := x.unpack .gradual
    let (magnitude, exact) : Nat × Bool :=
      if a.sig = 0 then (0, true)
      else if 0 ≤ a.exp then
        if 64 ≤ a.leadExp then (Nat.pow 2 64, true) else (a.sig <<< a.exp.toNat, true)
      else
        let shift := a.exp.natAbs
        if 128 ≤ shift then (0, false) else (a.sig >>> shift, a.sig % Nat.pow 2 shift == 0)
    some (if a.sign then -(magnitude : Int) else magnitude, exact)

/-- Truncated toward zero, as an integer of a type, where it must fit. -/
def toFixedInt (ty : IntType) (x : BinaryFloat fmt) : Except Overflow (FixedInt ty) :=
  match x.truncated? with
  | none => .error .nonFinite
  | some (v, _) => FixedInt.ofIntTrapping v

/-- Truncated toward zero, as an integer of a type, or the error that it does not fit. -/
def toFixedIntChecked (ty : IntType) (x : BinaryFloat fmt) : Except NumericError (FixedInt ty) :=
  (x.toFixedInt ty).mapError .fatalOverflow

/-- The integer of a type that `x` is, if it is one. -/
def toFixedIntExactly? (ty : IntType) (x : BinaryFloat fmt) : Option (FixedInt ty) :=
  match x.truncated? with
  | some (v, true) => FixedInt.ofInt? v
  | _ => none

/-- Truncated toward zero into the bounds of a type; a NaN gives zero. -/
def toIntSaturating (ty : IntType) (x : BinaryFloat fmt) : Int :=
  match x.truncated? with
  | some (v, _) => ty.clamp v
  | none => if x.isNaN then 0 else if x.sign then ty.minValue else ty.maxValue

end MachineNumbers.BinaryFloat
