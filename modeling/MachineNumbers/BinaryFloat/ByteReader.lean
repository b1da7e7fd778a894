import MachineNumbers.BinaryFloat.Checked.Decimal
import MachineNumbers.BinaryFloat.Text
import MachineNumbers.Text.Utf8

/-!
# Reading floats in bytes and machine words

`ByteReader.parse` reads a float as `BinaryFloat.parse` does, in the steps that a machine takes.  A step that
would stop the program, such as a cut inside a character, makes the result none.
-/

namespace MachineNumbers.ByteReader

open MachineWord (difference? signed? unsigned?)
open Utf8 (charOf)

/-! ## Literals -/

def isDigitAt (text : List UInt8) (place : Nat) : Bool :=
  (text[place]?.bind fun b => Decimal.digit? (charOf b)).isSome

/-- There are digits before a place and after it; nothing is before the first. -/
def isBetweenDigits (text : List UInt8) : Nat → Bool
  | 0 => false
  | place + 1 => isDigitAt text place && isDigitAt text (place + 2)

/-- A mantissa as far as it has been read. -/
structure MantissaScan where
  digits : List Nat
  exp : Int
  pointed : Bool
  /-- The place of the next byte. -/
  place : Nat
  deriving DecidableEq, Repr

namespace MantissaScan

def start : MantissaScan := ⟨[], 0, false, 0⟩

def push (s : MantissaScan) (d : Nat) : MantissaScan :=
  { s with
    digits := s.digits ++ [d]
    exp := if s.pointed then Decimal.saturated (s.exp - 1) else s.exp }

/-- Reads on as far as the mantissa goes. -/
def run (text : List UInt8) (s : MantissaScan) : Except TextError MantissaScan :=
  if h : s.place < text.length then
    let c := charOf (text.get ⟨s.place, h⟩)
    match Decimal.digit? c with
    | some d => run text { s.push d with place := s.place + 1 }
    | none =>
      if c = '_' then
        if isBetweenDigits text s.place then run text { s with place := s.place + 1 }
        else .error .misplacedSeparator
      else if c = '.' ∧ s.pointed = false then
        run text { s with pointed := true, place := s.place + 1 }
      else .ok s
  else .ok s
termination_by text.length - s.place

end MantissaScan

/-- Reads the digits of an exponent from a place on, and gives the place after them. -/
def scanDigits (text : List UInt8) (place : Nat) (e : Int) : Int × Nat :=
  if h : place < text.length then
    match Decimal.digit? (charOf (text.get ⟨place, h⟩)) with
    | some d => scanDigits text (place + 1) (Decimal.saturated (Decimal.saturated (e * 10) + d))
    | none => (e, place)
  else (e, place)
termination_by text.length - place

/-- A sign at a place, if there is one, and the place after it; `true` stands for minus. -/
def scanSign (text : List UInt8) (place : Nat) : Bool × Nat :=
  match text[place]? with
  | none => (false, place)
  | some b =>
    if charOf b = '-' then (true, place + 1)
    else if charOf b = '+' then (false, place + 1)
    else (false, place)

/-- Adds an exponent that begins at a place, if there is one, and gives the place after it. -/
def scanExponent (text : List UInt8) (exp : Int) (place : Nat) :
    Option (Except TextError (Int × Nat)) :=
  match text[place]? with
  | none => some (.ok (exp, place))
  | some b =>
    if charOf b = 'e' ∨ charOf b = 'E' then
      let (negative, start) := scanSign text (place + 1)
      let (e, stop) := scanDigits text start 0
      if stop = start then some (.error .missingExponentDigits)
      else
        (if negative then signed? 64 (-e) else some e).map fun e =>
          .ok (Decimal.saturated (exp + e), stop)
    else some (.ok (exp, place))

def lastNonzero? (digits : List Nat) : Option Nat :=
  (digits.reverse.findIdx? (· != 0)).map fun trailing => digits.length - 1 - trailing

/-- The decimal of digits and an exponent, without the zeros at both ends; none is a zero. -/
def trimmed (digits : List Nat) (exp : Int) : Option (Option Decimal) :=
  match digits.findIdx? (· != 0) with
  | none => some none
  | some first => do
    let last := (lastNonzero? digits).getD first
    let trailing ← difference? (← difference? digits.length 1) last
    let kept := digits.take (last + 1)
    let _ ← difference? kept.length first
    some (some ⟨kept.drop first, Decimal.saturated (exp + trailing)⟩)

/-- Reads a literal; none is a zero. -/
def lex (text : List UInt8) : Option (Except TextError (Option Decimal)) :=
  match MantissaScan.start.run text with
  | .error fault => some (.error fault)
  | .ok s =>
    if s.digits.isEmpty then
      some (.error (if s.place = text.length then .empty else .invalidDigit))
    else do
      match ← scanExponent text s.exp s.place with
      | .error fault => some (.error fault)
      | .ok (exp, stop) =>
        if stop = text.length then (trimmed s.digits exp).map .ok
        else some (.error .trailingCharacters)

/-! ## Special names -/

/-- The payload that follows the name of a NaN, in a word of 64 bits. -/
def parsePayload (fmt : FloatFormat) (text : List UInt8) : Option (Except NumericError Nat) := do
  match ← Utf8.dropName ['(', '0', 'x'] text with
  | none => some (.error (.malformedText .trailingCharacters))
  | some rest =>
    if rest.getLast?.map charOf ≠ some ')' then
      some (.error (.malformedText .trailingCharacters))
    else
      let hex := rest.dropLast
      if hex.isEmpty then some (.error (.malformedText .empty))
      else
        match hex.mapM fun b => Positional.hexValue? (charOf b) with
        | none => some (.error (.malformedText .invalidDigit))
        | some ds =>
          match unsigned? 64 (Positional.ofDigits 16 ds) with
          | none => some (.error .range)
          | some payload =>
            if fmt.maxPayload < payload then some (.error .range) else some (.ok payload)

variable {fmt : FloatFormat}

def parseNaN (base : BinaryFloat fmt) (text : List UInt8) :
    Option (Except NumericError (BinaryFloat fmt)) :=
  if text.isEmpty then some (.ok base)
  else (parsePayload fmt text).map fun payload =>
    payload.map fun payload => .ofWord false (base.word ||| payload)

/-- A special name, in any case; none if the text is something else. -/
def parseSpecial? (text : List UInt8) : Option (Except NumericError (Option (BinaryFloat fmt))) :=
  if Utf8.isName "inf".toList text || Utf8.isName "infinity".toList text then
    some (.ok (some (.infinity false)))
  else do
    match ← Utf8.dropName "snan".toList text with
    | some rest => (parseNaN .signalingNaN rest).map fun x => x.map some
    | none =>
      match ← Utf8.dropName "nan".toList text with
      | some rest => (parseNaN .nan rest).map fun x => x.map some
      | none => some (.ok none)

/-! ## Texts -/

/-- Splits off a sign, if there is one; `true` stands for minus. -/
def splitSign (text : List UInt8) : Option (Bool × List UInt8) :=
  match text.head?.map charOf with
  | some '-' => (Utf8.dropBytes? text 1).map fun body => (true, body)
  | some '+' => (Utf8.dropBytes? text 1).map fun body => (false, body)
  | _ => some (false, text)

/-- Reads a sign and then a special name or a decimal literal. -/
def parse (fmt : FloatFormat) (text : List UInt8) :
    Option (Except NumericError (BinaryFloat fmt)) := do
  let (negative, body) ← splitSign text
  match ← parseSpecial? body with
  | .error e => some (.error e)
  | .ok (some special) => some (.ok (if negative then -special else special))
  | .ok none =>
    match ← lex body with
    | .error fault => some (.error (.malformedText fault))
    | .ok none => some (.ok (.zero negative))
    | .ok (some d) => (Checked.ofDecimal? negative d).map .ok

end MachineNumbers.ByteReader
