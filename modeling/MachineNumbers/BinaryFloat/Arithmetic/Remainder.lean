import MachineNumbers.BinaryFloat.Unpacked

/-!
# Remainders

Both remainders are exact.  A dividend of the greater exponent is shifted into place 64 bits at a time and
reduced after each step, so that nothing outgrows 128 bits.  The nearest remainder reduces modulo twice the
divisor first, which keeps the parity of the quotient.
-/

namespace MachineNumbers

/-- Steps of at most 64 that add up to `d`. -/
def shiftSteps (d : Nat) : List Nat := List.replicate (d / 64) 64 ++ [d % 64]

/-- `r × 2^d` modulo `m`, for `r < m`. -/
def shiftedMod (r d m : Nat) : Nat :=
  (shiftSteps d).foldl (fun r s => (r <<< s) % m) r

/-- `mx × 2^ex` modulo `my × 2^ey` as a significand and its exponent, for significands below
`2^64`. -/
def remainderAt (mx : Nat) (ex : Int) (my : Nat) (ey : Int) : Nat × Int :=
  if ey ≤ ex then (shiftedMod (mx % my) (ex - ey).toNat my, ey)
  else
    let shift := (ey - ex).toNat
    if 64 ≤ shift then (mx, ex) else (mx % (my <<< shift), ex)

/-- `x` less the nearest multiple of `y`, ties to the even multiple; a zero takes the sign of `x`. -/
def Unpacked.nearestRemainder (x y : Unpacked) : Unpacked :=
  let (r, e) := remainderAt x.sig x.exp y.sig (y.exp + 1)
  -- one bit finer than both, so that half of `y` is a whole number
  let r := r <<< 1
  let divisor := y.sig <<< (y.exp - e + 1).toNat
  let odd : Bool := divisor ≤ r
  let r := if odd then r - divisor else r
  let past : Bool := divisor < 2 * r || (2 * r == divisor && odd)
  let sig := if past then divisor - r else r
  ⟨if sig = 0 then x.sign else x.sign != past, e - 1, sig⟩

namespace BinaryFloat

variable {fmt : FloatFormat}

/-- The remainders that need no division: none of an infinity or by zero, and `x` itself when it
reads as zero or the divisor is infinite. -/
def remainderSpecial? (mode : SubnormalMode) (x y : BinaryFloat fmt) : Option (BinaryFloat fmt) :=
  match propagatedNaN? [x, y] with
  | some nan => some nan
  | none =>
    if x.isInfinite || y.readsAsZero mode then some nan
    else if x.readsAsZero mode || y.isInfinite then some (roundPack mode (x.unpack mode) false)
    else none

/-- The remainder of the quotient truncated toward zero. -/
def truncatingRemainder (mode : SubnormalMode) (x y : BinaryFloat fmt) : BinaryFloat fmt :=
  match x.remainderSpecial? mode y with
  | some special => special
  | none =>
    let a := x.unpack mode
    let b := y.unpack mode
    let (sig, exp) := remainderAt a.sig a.exp b.sig b.exp
    roundPack mode ⟨a.sign, exp, sig⟩ false

/-- The remainder of the quotient rounded to nearest, ties to even. -/
def remainder (mode : SubnormalMode) (x y : BinaryFloat fmt) : BinaryFloat fmt :=
  match x.remainderSpecial? mode y with
  | some special => special
  | none =>
    let a := x.unpack mode
    let b := y.unpack mode
    -- so far below the divisor the nearest quotient is zero
    if 54 ≤ b.exp - a.exp then roundPack mode a false
    else roundPack mode (a.nearestRemainder b) false

instance : Mod (BinaryFloat fmt) := ⟨truncatingRemainder .native⟩

end BinaryFloat

end MachineNumbers
