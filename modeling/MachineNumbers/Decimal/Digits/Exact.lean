import MachineNumbers.Decimal.Digits.Basic
import MachineNumbers.Limbs

/-!
# Shortest digits on limbs

The target is a fraction `r / s`, and what rounds to it lies between `(r - minus) / s` and
`(r + plus) / s`, bounds included if the significand is even.  Scaled so that the upper bound lies between a
tenth and one, `r` gives one digit with each tenfold, until the digits are within the interval.
-/

namespace MachineNumbers

/-- A fraction `r / s` with the bounds around it, and the decimal exponent it is scaled by. -/
structure ScaledFraction where
  r : Limbs
  s : Limbs
  minus : Limbs
  plus : Limbs
  point : Int
  deriving Repr

namespace ScaledFraction

/-- Whether `sum / s` has reached one; a bound that counts reaches it by equality too. -/
def reaches (inclusive : Bool) (sum s : Limbs) : Bool := if inclusive then s.le sum else s.lt sum

/-- The target as a fraction, in units that make both bounds whole. -/
def ofTarget (t : DigitTarget) : ScaledFraction :=
  let sig := if t.lowerCloser then 4 * t.sig else 2 * t.sig
  let plus := if t.lowerCloser then 2 else 1
  let exp := if t.lowerCloser then t.exp - 2 else t.exp - 1
  let up := exp.toNat
  ⟨(Limbs.ofNat64 sig).mulPow2 up, (Limbs.ofNat64 1).mulPow2 (-exp).toNat,
    (Limbs.ofNat64 1).mulPow2 up, (Limbs.ofNat64 plus).mulPow2 up, 0⟩

/-- An estimate of the decimal exponent of the upper bound, at most one off; `1233 / 4096` is a little
under the decimal logarithm of two. -/
def estimate (t : DigitTarget) : Int :=
  let sig := if t.lowerCloser then 4 * t.sig + 2 else 2 * t.sig + 1
  let exp := if t.lowerCloser then t.exp - 2 else t.exp - 1
  (sig.log2 + exp) * 1233 / 4096 + 1

def scaleBy (x : ScaledFraction) (k : Int) : ScaledFraction :=
  let up := (-k).toNat
  { r := x.r.mulPow10 up, s := x.s.mulPow10 k.toNat, minus := x.minus.mulPow10 up,
    plus := x.plus.mulPow10 up, point := x.point + k }

/-- Ten times the fraction, under the next lower exponent. -/
def timesTen (x : ScaledFraction) : ScaledFraction :=
  { x with r := x.r.mul10, minus := x.minus.mul10, plus := x.plus.mul10, point := x.point - 1 }

/-- A tenth of the fraction while the upper bound has reached one. -/
def lowerToOne (inclusive : Bool) : Nat → ScaledFraction → ScaledFraction
  | 0, x => x
  | steps + 1, x =>
    if reaches inclusive (x.r.add x.plus) x.s then
      lowerToOne inclusive steps { x with s := x.s.mul10, point := x.point + 1 }
    else x

/-- Ten times the fraction while the upper bound has not reached a tenth. -/
def raiseToTenth (inclusive : Bool) : Nat → ScaledFraction → ScaledFraction
  | 0, x => x
  | steps + 1, x =>
    if reaches inclusive (x.r.add x.plus).mul10 x.s then x
    else raiseToTenth inclusive steps x.timesTen

/-- The fraction scaled so that its upper bound has reached a tenth but not one.  Ten outgrows two, so
the lengths of the two sides bound the corrections. -/
def scaled (t : DigitTarget) : ScaledFraction :=
  let inclusive := t.sig % 2 == 0
  let x := (ofTarget t).scaleBy (estimate t)
  let x := lowerToOne inclusive (x.r.add x.plus).bitLength x
  raiseToTenth inclusive x.s.bitLength x

/-- How a digit ends the generation: not, as it is, or counted up. -/
inductive Ending where
  | goesOn
  | stands
  | roundsUp
  deriving DecidableEq, Repr

/-- The ending at a fraction whose whole part has just been taken off as a digit.  Where both the digit
and the next one up are within the interval the nearer is taken, and the upper one on a tie. -/
def ending (inclusive : Bool) (x : ScaledFraction) : Ending :=
  let low := if inclusive then x.r.le x.minus else x.r.lt x.minus
  let high := reaches inclusive (x.r.add x.plus) x.s
  match low, high with
  | false, false => .goesOn
  | true, false => .stands
  | false, true => .roundsUp
  | true, true => if x.s.le (x.r.mulPow2 1) then .roundsUp else .stands

/-- The digits counted up by one in the last place, last digit first. -/
def countUp : List Nat → List Nat
  | [] => []
  | d :: ds => if d = 9 then 0 :: countUp ds else (d + 1) :: ds

/-- The digits, last digit first, with the ending; all nines become a one and zeros, under the next
higher exponent. -/
def finish (digits : List Nat) (point : Int) (roundUp : Bool) : DigitString :=
  if !roundUp then ⟨digits.reverse, point⟩
  else if digits.all (· == 9) then ⟨1 :: List.replicate (digits.length - 1) 0, point + 1⟩
  else ⟨(countUp digits).reverse, point⟩

/-- The digits from here on after `digits`, which holds those before, last digit first; `point` is the
exponent of the whole. -/
def digitsFrom (inclusive : Bool) (point : Int) :
    Nat → ScaledFraction → List Nat → DigitString
  | 0, _, digits => finish digits point false
  | steps + 1, x, digits =>
    let x := x.timesTen
    let (digit, r) := x.r.divModSmall x.s
    let x := { x with r := r }
    let digits := digit :: digits
    match ending inclusive x with
    | .goesOn => digitsFrom inclusive point steps x digits
    | .stands => finish digits point false
    | .roundsUp => finish digits point true

end ScaledFraction

namespace DigitTarget

/-- The shortest digits, and of these the nearest.  The interval grows tenfold with each step, so the
length of the denominator bounds them. -/
def exactDigits (t : DigitTarget) : DigitString :=
  let x := ScaledFraction.scaled t
  ScaledFraction.digitsFrom (t.sig % 2 == 0) x.point (x.s.bitLength + 1) x []

end DigitTarget

end MachineNumbers
