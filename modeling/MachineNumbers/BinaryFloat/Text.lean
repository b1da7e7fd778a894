import MachineNumbers.Decimal.Digits.Shortest
import MachineNumbers.Decimal.Nearest

/-!
# Floats as text

The shortest decimal that reads back is written, and any decimal is read with one rounding.  Either may
need the exact way, which the notices tell.
-/

namespace MachineNumbers

/-- How a digit string is laid out. -/
structure DecimalStyle where
  /-- The least place of the point for positional notation, zeros following the point below one. -/
  leastPoint : Int
  /-- The least number of digits of an exponent. -/
  exponentDigits : Nat

/-- Down to `0.0001` numbers are positional, and exponents have two digits or more. -/
def DecimalStyle.standard : DecimalStyle := ⟨-3, 2⟩

namespace DigitString

def letters (ds : List Nat) : String := String.ofList (ds.map (Positional.digitChar false))

def zeros (n : Nat) : List Nat := List.replicate n 0

/-- The decimal in positional notation, with a digit on each side of the point. -/
def positional (s : DigitString) : String :=
  if s.point ≤ 0 then "0." ++ letters (zeros (-s.point).toNat ++ s.digits)
  else
    let place := s.point.toNat
    if place < s.digits.length then
      letters (s.digits.take place) ++ "." ++ letters (s.digits.drop place)
    else letters (s.digits ++ zeros (place - s.digits.length)) ++ ".0"

/-- The decimal in scientific notation, with one digit before the point. -/
def scientific (style : DecimalStyle) (s : DigitString) : String :=
  let rest := s.digits.drop 1
  let mantissa := letters (s.digits.take 1) ++ if rest.isEmpty then "" else "." ++ letters rest
  let exponent := s.point - 1
  let ds := Positional.digits 10 exponent.natAbs
  mantissa ++ "e" ++ (if exponent < 0 then "-" else "+") ++
    letters (zeros (style.exponentDigits - ds.length) ++ ds)

end DigitString

/-- What happened on the way between floats and text. -/
inductive CodecNotice where
  /-- Single words could not tell the shortest digits of a target. -/
  | exactDigits (target : DigitTarget)
  /-- A decimal was read with exact arithmetic. -/
  | exactReading (decimal : Decimal)
  deriving DecidableEq, Repr

def CodecNotice.message : CodecNotice → String
  | exactDigits t =>
    "shortest digits of " ++ toString t.sig ++ " × 2^" ++ toString t.exp
      ++ ": fast path inconclusive, using exact path"
  | exactReading d =>
    "parsing " ++ toString d.digits.length ++ " digits × 10^" ++ toString d.exp
      ++ ": using exact path"

namespace BinaryFloat

variable {fmt : FloatFormat}

/-! ## Writing -/

/-- A number that is not a NaN: positional from `0.0001` up to `2^precision` exclusive, where every
integer is a number of the format, and scientific elsewhere. -/
def numberText (x : BinaryFloat fmt) : String :=
  let sign := if x.sign then "-" else ""
  if x.isInfinite then sign ++ "inf"
  else if x.isZero then sign ++ "0.0"
  else
    let style := DecimalStyle.standard
    let s := (DigitTarget.ofFloat x).shortest
    let isPositional := style.leastPoint ≤ s.point ∧ (x.unpack .gradual).leadExp < fmt.precision
    sign ++ if isPositional then s.positional else s.scientific style

/-- The shortest text that reads back as the same number; every NaN is `nan`. -/
def display (x : BinaryFloat fmt) : String := if x.isNaN then "nan" else x.numberText

/-- The same, but a NaN shows whether it is signaling, and its payload if there is one. -/
def debug (x : BinaryFloat fmt) : String :=
  if x.isNaN then
    let name := if x.isSignalingNaN then "snan" else "nan"
    if x.payload = 0 then name
    else name ++ "(0x" ++ Positional.numeral 16 false x.payload ++ ")"
  else x.numberText

/-- What writing a float reports. -/
def displayNotices (x : BinaryFloat fmt) : List CodecNotice :=
  let target := DigitTarget.ofFloat x
  if x.isFinite && !x.isZero && target.needsExactDigits then [.exactDigits target] else []

/-! ## Reading -/

/-- The text after a name, which is given in lower case and matches either. -/
def dropName : List Char → List Char → Option (List Char)
  | [], text => some text
  | _ :: _, [] => none
  | n :: name, c :: text => if c.toLower = n then dropName name text else none

def parsePayload (fmt : FloatFormat) (text : List Char) : Except NumericError Nat :=
  match dropName ['(', '0', 'x'] text with
  | none => .error (.malformedText .trailingCharacters)
  | some rest =>
    if rest.getLast? ≠ some ')' then .error (.malformedText .trailingCharacters)
    else
      let hex := rest.dropLast
      if hex.isEmpty then .error (.malformedText .empty)
      else
        match hex.mapM Positional.hexValue? with
        | none => .error (.malformedText .invalidDigit)
        | some ds =>
          let payload := Positional.ofDigits 16 ds
          if payload ≤ fmt.maxPayload then .ok payload else .error .range

def parseNaN (base : BinaryFloat fmt) (text : List Char) : Except NumericError (BinaryFloat fmt) :=
  if text.isEmpty then .ok base
  else (parsePayload fmt text).map fun payload => ofWord false (base.word ||| payload)

/-- A special name, in any case; none if the text is something else. -/
def parseSpecial? (text : List Char) : Except NumericError (Option (BinaryFloat fmt)) :=
  if dropName "inf".toList text = some [] ∨ dropName "infinity".toList text = some [] then
    .ok (some (infinity false))
  else
    match dropName "snan".toList text with
    | some rest => (parseNaN signalingNaN rest).map some
    | none =>
      match dropName "nan".toList text with
      | some rest => (parseNaN nan rest).map some
      | none => .ok none

/-- Reads a sign and then a special name or a decimal literal. -/
def parse (text : String) : Except NumericError (BinaryFloat fmt) :=
  let (negative, body) := Decimal.scanSign text.toList
  match parseSpecial? body with
  | .error e => .error e
  | .ok (some special) => .ok (if negative then -special else special)
  | .ok none =>
    match Decimal.lex body with
    | .error fault => .error (.malformedText fault)
    | .ok none => .ok (zero negative)
    | .ok (some d) => .ok (ofDecimal negative d)

/-- What reading a text reports. -/
def parseNotices (fmt : FloatFormat) (text : String) : List CodecNotice :=
  let (_, body) := Decimal.scanSign text.toList
  let special : Except NumericError (Option (BinaryFloat fmt)) := parseSpecial? body
  match special, Decimal.lex body with
  | .ok none, .ok (some d) => if d.needsExactReading fmt then [.exactReading d] else []
  | _, _ => []

end BinaryFloat

end MachineNumbers
