import MachineNumbers.FixedInt.Basic
import MachineNumbers.Text.Positional

/-!
# Reading integers

A numeral is an optional sign and digits, with `_` allowed between two digits.  A magnitude too long for a
word of 128 bits is lost, but the text is read to its end, so that its faults go before the range.
-/

namespace MachineNumbers

namespace Numeral

def startsWithDigit (radix : Nat) : List Char → Bool
  | [] => false
  | c :: _ => (Positional.digitValue? radix c).isSome

/-- A number, if a word of 128 bits holds it. -/
def word? (n : Nat) : Option Nat := if n < Nat.pow 2 128 then some n else none

/-- A magnitude with one more digit; once lost it stays lost. -/
def pushDigit (radix : Nat) (magnitude : Option Nat) (d : Nat) : Option Nat :=
  magnitude.bind fun n => (word? (n * radix)).bind fun shifted => word? (shifted + d)

/-- Reads on from a magnitude; `afterDigit` says whether the last character was a digit. -/
def readDigits (radix : Nat) : Bool → Option Nat → List Char → Except TextError (Option Nat)
  | _, magnitude, [] => .ok magnitude
  | afterDigit, magnitude, c :: rest =>
    if c = '_' then
      if afterDigit && startsWithDigit radix rest then readDigits radix false magnitude rest
      else .error .misplacedSeparator
    else
      match Positional.digitValue? radix c with
      | some d => readDigits radix true (pushDigit radix magnitude d) rest
      | none => .error .invalidDigit

/-- The magnitude of a run of digits, which is not empty; none if no word holds it. -/
def readMagnitude (radix : Nat) (text : List Char) : Except TextError (Option Nat) :=
  if text.isEmpty then .error .empty else readDigits radix false (some 0) text

/-- The sign, if there is one, and the rest of the text; `true` stands for minus. -/
def splitSign : List Char → Bool × List Char
  | '-' :: rest => (true, rest)
  | '+' :: rest => (false, rest)
  | text => (false, text)

/-- The radix that a mark chooses, and the rest of the text. -/
def splitRadix : List Char → Nat × List Char
  | '0' :: 'b' :: rest => (2, rest)
  | '0' :: 'B' :: rest => (2, rest)
  | '0' :: 'o' :: rest => (8, rest)
  | '0' :: 'O' :: rest => (8, rest)
  | '0' :: 'x' :: rest => (16, rest)
  | '0' :: 'X' :: rest => (16, rest)
  | text => (10, text)

end Numeral

namespace FixedInt

variable {ty : IntType}

/-- The integer of a sign and digits in a radix. -/
def ofSignedDigits (negative : Bool) (radix : Nat) (text : List Char) :
    Except NumericError (FixedInt ty) :=
  match Numeral.readMagnitude radix text with
  | .error fault => .error (.malformedText fault)
  | .ok none => .error .range
  | .ok (some n) =>
    -- with a sign the word is one bit shorter
    if n < Nat.pow 2 127 then ofIntChecked (if negative then -(n : Int) else n) else .error .range

/-- Reads a numeral in radix 2, 8, 10 or 16. -/
def ofNumeral (radix : Nat) (text : String) : Except NumericError (FixedInt ty) :=
  if radix = 2 ∨ radix = 8 ∨ radix = 10 ∨ radix = 16 then
    let (negative, rest) := Numeral.splitSign text.toList
    ofSignedDigits negative radix rest
  else .error (.malformedText .unsupportedRadix)

/-- Reads a numeral, decimal unless a mark after the sign chooses the radix. -/
def parse (text : String) : Except NumericError (FixedInt ty) :=
  let (negative, rest) := Numeral.splitSign text.toList
  let (radix, digits) := Numeral.splitRadix rest
  ofSignedDigits negative radix digits

end FixedInt

end MachineNumbers
