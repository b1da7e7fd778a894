/-!
# What can go wrong

Every failure is a value with a cause.
-/

namespace MachineNumbers

/-- Why an operation has no representable result. -/
inductive Overflow where
  | arithmetic
  | negateMin
  | divisionByZero
  | remainderByZero
  | conversion
  | nonFinite
  deriving DecidableEq, Repr

def Overflow.reason : Overflow → String
  | .arithmetic => "arithmetic result out of range"
  | .negateMin => "negation of the minimum signed value"
  | .divisionByZero => "division by zero"
  | .remainderByZero => "remainder by zero"
  | .conversion => "value out of range of the target integer type"
  | .nonFinite => "NaN or infinity cannot be converted to an integer"

/-- What is wrong with a piece of numeric text. -/
inductive TextError where
  | empty
  | invalidDigit
  | misplacedSeparator
  | missingExponentDigits
  | trailingCharacters
  | unsupportedRadix
  deriving DecidableEq, Repr

def TextError.reason : TextError → String
  | .empty => "no digits"
  | .invalidDigit => "invalid digit"
  | .misplacedSeparator => "digit separator not between two digits"
  | .missingExponentDigits => "exponent has no digits"
  | .trailingCharacters => "unexpected trailing characters"
  | .unsupportedRadix => "radix must be 2, 8, 10, or 16"

/-- All failures of operations, conversions and readers of text. -/
inductive NumericError where
  /-- An operation has no representable result. -/
  | fatalOverflow (cause : Overflow)
  /-- A well-formed value does not fit the target type. -/
  | range
  /-- A pattern of one width was to be read as a type of another. -/
  | invalidWidthPairing (source target : Nat)
  /-- A text does not follow the grammar. -/
  | malformedText (fault : TextError)
  deriving DecidableEq, Repr

def NumericError.message : NumericError → String
  | .fatalOverflow cause => "fatal overflow: " ++ cause.reason
  | .range => "value not representable in the target type"
  | .invalidWidthPairing source target =>
    "cannot reinterpret a " ++ toString source ++ "-bit pattern as " ++ toString target ++ " bits"
  | .malformedText fault => "malformed numeric text: " ++ fault.reason

end MachineNumbers
