import MachineNumbers.BinaryFloat.Basic

/-!
# Orders on floating-point numbers

`compare?` orders numbers by value, and `totalCompare` all encodings.  `minimum` and `maximum` follow the
first, except that a NaN wins and `-0` lies below `+0`.
-/

namespace MachineNumbers.BinaryFloat

variable {fmt : FloatFormat}

/-- Equality of numbers: no NaN equals anything, and the zeros are equal. -/
def equals (x y : BinaryFloat fmt) : Bool :=
  !x.isNaN && !y.isNaN && (x == y || (x.isZero && y.isZero))

/-- The order of two numbers, if neither is a NaN. -/
def compare? (x y : BinaryFloat fmt) : Option Ordering :=
  if x.isNaN || y.isNaN then none
  else if x.isZero && y.isZero then some .eq
  else some <| match x.sign, y.sign with
    | false, false => compare x.word y.word
    | true, true => compare y.word x.word
    | false, true => .gt
    | true, false => .lt

def isLess (x y : BinaryFloat fmt) : Bool := x.compare? y == some .lt

def isAtMost (x y : BinaryFloat fmt) : Bool :=
  x.compare? y == some .lt || x.compare? y == some .eq

/-- The lesser number; a NaN if there is one. -/
def minimum (x y : BinaryFloat fmt) : BinaryFloat fmt :=
  match propagatedNaN? [x, y] with
  | some nan => nan
  | none =>
    if x.isZero && y.isZero then if x.sign then x else y
    else if x.isAtMost y then x else y

/-- The greater number; a NaN if there is one. -/
def maximum (x y : BinaryFloat fmt) : BinaryFloat fmt :=
  match propagatedNaN? [x, y] with
  | some nan => nan
  | none =>
    if x.isZero && y.isZero then if x.sign then y else x
    else if y.isAtMost x then x else y

/-- The place of an encoding in the total order; `+0` is at 0 and `-0` just below. -/
def rank (x : BinaryFloat fmt) : Int := if x.sign then -1 - x.word else x.word

/-- The total order: numbers by value, `-0` below `+0`, NaNs beyond the infinities by payload. -/
def totalCompare (x y : BinaryFloat fmt) : Ordering := compare x.rank y.rank

def sortTotal (xs : List (BinaryFloat fmt)) : List (BinaryFloat fmt) :=
  xs.mergeSort fun x y => x.rank ≤ y.rank

end MachineNumbers.BinaryFloat
