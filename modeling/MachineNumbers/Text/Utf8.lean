/-!
# Texts as bytes

A text may be cut before a byte that begins a character, or at either end; a cut elsewhere gives none.
-/

namespace MachineNumbers.Utf8

def bytes (text : List Char) : List UInt8 := text.flatMap String.utf8EncodeChar

/-- The byte is the first of a character. -/
def beginsChar (b : UInt8) : Bool := b < 128 || 192 ≤ b

/-- A character begins at the place, or the text is cut at an end. -/
def isBoundary (text : List UInt8) (place : Nat) : Bool :=
  place == 0 ||
    match text[place]? with
    | some b => beginsChar b
    | none => place == text.length

/-- The bytes before a place, if the text can be cut there. -/
def takeBytes? (text : List UInt8) (place : Nat) : Option (List UInt8) :=
  if isBoundary text place then some (text.take place) else none

/-- The bytes from a place on, where the text must be cut. -/
def dropBytes? (text : List UInt8) (place : Nat) : Option (List UInt8) :=
  if isBoundary text place then some (text.drop place) else none

/-- A byte as the character with its code; below 128 the byte stands for that character. -/
def charOf (b : UInt8) : Char := Char.ofNat b.toNat

/-- The text is a name, which is given in lower case and matches either. -/
def isName (name : List Char) (text : List UInt8) : Bool :=
  text.map (fun b => (charOf b).toLower) == name

/-- The text after a name, if it begins with one.  Where the name ends the text might not be cut. -/
def dropName (name : List Char) (text : List UInt8) : Option (Option (List UInt8)) :=
  match takeBytes? text name.length with
  | none => some none
  | some head => if isName name head then (dropBytes? text name.length).map some else some none

end MachineNumbers.Utf8
