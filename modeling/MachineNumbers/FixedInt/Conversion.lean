import MachineNumbers.FixedInt.Basic

/-! # Conversions between integer types -/

namespace MachineNumbers

/-- What to do with a value that is not one of the target's. -/
inductive ConversionMode where
  /-- Fail with a range error. -/
  | exact
  /-- Give no value. -/
  | failable
  /-- Take the nearest value. -/
  | clamping
  /-- Take the pattern, extended by the source's signedness or cut off. -/
  | truncatingReinterpret
  /-- Take the pattern, which must have the target's width. -/
  | bitPatternReinterpret
  deriving DecidableEq, Repr

namespace FixedInt

variable {source : IntType} {target : IntType}

/-- The value of `a` in another type, if it is one of that type's. -/
def exactly? (target : IntType) (a : FixedInt source) : Option (FixedInt target) := ofInt? a.value

def exactlyChecked (target : IntType) (a : FixedInt source) :
    Except NumericError (FixedInt target) :=
  ofIntChecked a.value

/-- The value of `a` in another type, where it must fit. -/
def exactlyTrapping (target : IntType) (a : FixedInt source) : Except Overflow (FixedInt target) :=
  match a.exactly? target with
  | some b => .ok b
  | none => .error .conversion

/-- The value of another type nearest to `a`. -/
def clamping (target : IntType) (a : FixedInt source) : FixedInt target :=
  wrap (target.clamp a.value)

/-- The pattern of `a`, extended or cut off to another type's width. -/
def truncating (target : IntType) (a : FixedInt source) : FixedInt target := wrap a.value

/-- The pattern of `a` in a type of the same width. -/
def reinterpret (target : IntType) (sameWidth : target.width = source.width)
    (a : FixedInt source) : FixedInt target :=
  ⟨⟨a.bits.toBitVec.cast sameWidth.symm⟩⟩

/-- The pattern of `a` read with a sign. -/
def asSigned (a : FixedInt source) : FixedInt source.toSigned :=
  a.reinterpret source.toSigned (by rfl)

def asUnsigned (a : FixedInt source) : FixedInt source.toUnsigned :=
  a.reinterpret source.toUnsigned (by rfl)

/-- The conversion in a mode.  Only `failable` may give no value without an error. -/
def convert (target : IntType) (mode : ConversionMode) (a : FixedInt source) :
    Except NumericError (Option (FixedInt target)) :=
  let v := a.value
  match mode with
  | .exact => if target.Fits v then .ok (some (wrap v)) else .error .range
  | .failable => .ok (if target.Fits v then some (wrap v) else none)
  | .clamping => .ok (some (wrap (target.clamp v)))
  -- the value has the bits of the pattern, extended by the source's signedness without end
  | .truncatingReinterpret => .ok (some (wrap v))
  | .bitPatternReinterpret =>
    if source.width = target.width then .ok (some ⟨BitPattern.ofNat target.width a.bits.toNat⟩)
    else .error (.invalidWidthPairing source.width target.width)

end FixedInt

end MachineNumbers
