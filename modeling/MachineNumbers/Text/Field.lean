/-!
# Fields of text

How a number is laid out in a field; text longer than the field is not cut.
-/

namespace MachineNumbers

/-- The side of a field that its text stands on. -/
inductive Alignment where
  | left
  | centre
  | right
  deriving DecidableEq, Repr

/-- The layout of a number in a field. -/
structure FieldLayout where
  /-- The least number of characters. -/
  width : Nat
  fill : Char
  alignment : Alignment
  /-- Zeros between sign or radix mark and digits fill the field, whatever the alignment. -/
  zeroPadded : Bool
  /-- Numbers from zero up bear a plus sign. -/
  plusSign : Bool
  /-- Radix numerals bear their mark. -/
  radixMark : Bool
  deriving DecidableEq, Repr

namespace FieldLayout

/-- No field: the number as it is. -/
def plain : FieldLayout := ⟨0, ' ', .right, false, false, false⟩

def copies (n : Nat) (c : Char) : String := String.ofList (List.replicate n c)

/-- `lead`, which is a sign or a radix mark, and the digits after it, laid out.  Of an odd filling
around centred text the greater half goes to the right. -/
def place (layout : FieldLayout) (lead digits : String) : String :=
  let missing := layout.width - (lead.length + digits.length)
  if layout.zeroPadded then lead ++ copies missing '0' ++ digits
  else
    let before := match layout.alignment with
      | .left => 0
      | .centre => missing / 2
      | .right => missing
    copies before layout.fill ++ lead ++ digits ++ copies (missing - before) layout.fill

end FieldLayout

end MachineNumbers
