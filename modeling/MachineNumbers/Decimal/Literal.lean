import MachineNumbers.Error
import MachineNumbers.Text.Positional

/-!
# Decimal literals

A mantissa with at most one point and with `_` between two digits, and an optional exponent, which saturates
at 64 bits.
-/

namespace MachineNumbers

/-- The nonzero number `digits × 10^exp`, the digits read as a numeral. -/
structure Decimal where
  digits : List Nat
  exp : Int
  deriving DecidableEq, Repr

namespace Decimal

/-- The 64-bit integer nearest to `n`. -/
def saturated (n : Int) : Int := max (-Nat.pow 2 63) (min n (Nat.pow 2 63 - 1))

/-- The digits as a number. -/
def mantissa (d : Decimal) : Nat := Positional.ofDigits 10 d.digits

def digit? (c : Char) : Option Nat := Positional.digitValue? 10 c

/-- Whether the text goes on with a digit. -/
def startsWithDigit : List Char → Bool
  | [] => false
  | c :: _ => (digit? c).isSome

/-- A mantissa as far as it has been read. -/
structure Mantissa where
  /-- Last digit first. -/
  digits : List Nat
  /-- The number of digits after the point. -/
  fractionLength : Nat
  /-- A point has been read. -/
  pointed : Bool
  deriving DecidableEq, Repr

namespace Mantissa

def start : Mantissa := ⟨[], 0, false⟩

def push (m : Mantissa) (d : Nat) : Mantissa :=
  { m with digits := d :: m.digits, fractionLength := m.fractionLength + m.pointed.toNat }

/-- Reads on as far as the mantissa goes and gives the rest of the text; `afterDigit` says whether the
last character was a digit. -/
def scan (m : Mantissa) (afterDigit : Bool) : List Char → Except TextError (Mantissa × List Char)
  | [] => .ok (m, [])
  | c :: rest =>
    match digit? c with
    | some d => (m.push d).scan true rest
    | none =>
      if c = '_' then
        if afterDigit && startsWithDigit rest then m.scan false rest else .error .misplacedSeparator
      else if c = '.' ∧ m.pointed = false then scan { m with pointed := true } false rest
      else .ok (m, c :: rest)

end Mantissa

/-- Splits off a sign, if there is one; `true` stands for minus. -/
def scanSign : List Char → Bool × List Char
  | '-' :: rest => (true, rest)
  | '+' :: rest => (false, rest)
  | text => (false, text)

/-- Splits off the digits that the text begins with. -/
def scanDigits : List Char → List Nat × List Char
  | [] => ([], [])
  | c :: rest =>
    match digit? c with
    | some d => let (ds, rest) := scanDigits rest; (d :: ds, rest)
    | none => ([], c :: rest)

def exponentOfDigits (ds : List Nat) : Int :=
  ds.foldl (fun (e : Int) (d : Nat) => saturated (saturated (e * 10) + d)) 0

/-- The exponent that the text begins with, zero if there is none, and the rest. -/
def scanExponent : List Char → Except TextError (Int × List Char)
  | [] => .ok (0, [])
  | c :: rest =>
    if c = 'e' ∨ c = 'E' then
      let (negative, rest) := scanSign rest
      let (ds, rest) := scanDigits rest
      if ds.isEmpty then .error .missingExponentDigits
      else
        let e := exponentOfDigits ds
        .ok (if negative then -e else e, rest)
    else .ok (0, c :: rest)

/-- The decimal of a mantissa and an exponent: trailing zeros go into the exponent, leading ones go. -/
def ofMantissa? (m : Mantissa) (exponent : Int) : Option Decimal :=
  let low := m.digits.dropWhile (· == 0)
  let digits := low.reverse.dropWhile (· == 0)
  if digits.isEmpty then none
  else
    let exp := saturated (saturated (-m.fractionLength) + exponent)
    let trailing := m.digits.length - low.length
    some ⟨digits, saturated (exp + trailing)⟩

/-- Reads a literal; none is a zero. -/
def lex (text : List Char) : Except TextError (Option Decimal) :=
  match Mantissa.start.scan false text with
  | .error fault => .error fault
  | .ok (m, rest) =>
    if m.digits.isEmpty then .error (if rest.isEmpty then .empty else .invalidDigit)
    else
      match scanExponent rest with
      | .error fault => .error fault
      | .ok (exponent, rest) =>
        if rest.isEmpty then .ok (ofMantissa? m exponent) else .error .trailingCharacters

end Decimal

end MachineNumbers
