import MachineNumbers.BitPattern
import MachineNumbers.Error
import MachineNumbers.WordWidth

/-!
# Integers of a fixed width

A `FixedInt ty` is a bit pattern, which stands for an integer within the bounds of `ty`.
-/

namespace MachineNumbers

/-- A width and a signedness. -/
structure IntType where
  width : Nat
  signed : Bool
  isWordWidth : IsWordWidth width := by decide
  deriving DecidableEq

namespace IntType

def minValue (ty : IntType) : Int := if ty.signed then -(Nat.pow 2 (ty.width - 1) : Int) else 0

def maxValue (ty : IntType) : Int :=
  if ty.signed then (Nat.pow 2 (ty.width - 1) : Int) - 1 else (Nat.pow 2 ty.width : Int) - 1

/-- The value is one of the type's. -/
def Fits (ty : IntType) (v : Int) : Prop := ty.minValue ≤ v ∧ v ≤ ty.maxValue

instance (ty : IntType) (v : Int) : Decidable (ty.Fits v) := by unfold Fits; infer_instance

/-- The nearest value of the type. -/
def clamp (ty : IntType) (v : Int) : Int := max ty.minValue (min v ty.maxValue)

/-- The unsigned type of the same width. -/
def toUnsigned (ty : IntType) : IntType := { ty with signed := false }

def toSigned (ty : IntType) : IntType := { ty with signed := true }

end IntType

/-- An integer of a fixed-width type, held as its bit pattern. -/
structure FixedInt (ty : IntType) where
  bits : BitPattern ty.width
  deriving DecidableEq

namespace FixedInt

variable {ty : IntType}

/-- The integer that the pattern stands for. -/
def value (a : FixedInt ty) : Int := if ty.signed then a.bits.toInt else a.bits.toNat

/-- The integer congruent to `v`: the low bits of its two's complement. -/
def wrap (v : Int) : FixedInt ty := ⟨BitPattern.ofInt ty.width v⟩

/-- The value, if it is one of the type's. -/
def ofInt? (v : Int) : Option (FixedInt ty) := if ty.Fits v then some (wrap v) else none

/-- The value, which must be one of the type's. -/
def ofIntTrapping (v : Int) : Except Overflow (FixedInt ty) :=
  match ofInt? v with
  | some a => .ok a
  | none => .error .conversion

/-- The value, or a range error. -/
def ofIntChecked (v : Int) : Except NumericError (FixedInt ty) :=
  if ty.Fits v then .ok (wrap v) else .error .range

def minimum : FixedInt ty := wrap ty.minValue

def maximum : FixedInt ty := wrap ty.maxValue

def zero : FixedInt ty := ⟨BitPattern.zero⟩

def one : FixedInt ty := wrap 1

instance : Inhabited (FixedInt ty) := ⟨zero⟩

def isNegative (a : FixedInt ty) : Bool := ty.signed && a.bits.signBit

/-- The order by value. -/
def compare (a b : FixedInt ty) : Ordering := Ord.compare a.value b.value

instance : Ord (FixedInt ty) := ⟨compare⟩

def greater (a b : FixedInt ty) : FixedInt ty := if b.value ≤ a.value then a else b

instance : AndOp (FixedInt ty) := ⟨fun a b => ⟨a.bits &&& b.bits⟩⟩

instance : OrOp (FixedInt ty) := ⟨fun a b => ⟨a.bits ||| b.bits⟩⟩

instance : XorOp (FixedInt ty) := ⟨fun a b => ⟨a.bits ^^^ b.bits⟩⟩

instance : Complement (FixedInt ty) := ⟨fun a => ⟨~~~a.bits⟩⟩

def swapBytes (a : FixedInt ty) : FixedInt ty := ⟨a.bits.swapBytes⟩

/-- The value times `2^n`, wrapped. -/
def shiftLeft (a : FixedInt ty) (n : Nat) : FixedInt ty := ⟨a.bits.shiftLeft n⟩

/-- The value divided by `2^n`, rounded down. -/
def shiftRight (a : FixedInt ty) (n : Nat) : FixedInt ty :=
  ⟨if ty.signed then a.bits.shiftRightSigned n else a.bits.shiftRight n⟩

/-! ## Lemmas: values and bounds -/

/-- A pattern stands for a value of its type. -/
theorem fits_value (a : FixedInt ty) : ty.Fits a.value := by
  have hlt := a.bits.toBitVec.isLt
  have hle := BitVec.le_toInt a.bits.toBitVec
  have hlt' := BitVec.toInt_lt (x := a.bits.toBitVec)
  unfold IntType.Fits IntType.minValue IntType.maxValue value BitPattern.toInt BitPattern.toNat
  simp only [Nat.pow_eq, Int.natCast_pow]
  split
  · exact ⟨hle, Int.le_sub_one_of_lt hlt'⟩
  · exact ⟨Int.natCast_nonneg _, Int.le_sub_one_of_lt (by exact_mod_cast hlt)⟩

/-- What fits is kept by wrapping. -/
theorem value_wrap (v : Int) (h : ty.Fits v) : (wrap v : FixedInt ty).value = v := by
  obtain ⟨w, signed, hw⟩ := ty
  have hpos : 0 < w := by unfold IsWordWidth at hw; omega
  have htwo : Nat.pow 2 w = 2 * Nat.pow 2 (w - 1) := by
    rw [Nat.pow_eq, Nat.pow_eq, ← Nat.pow_succ', Nat.succ_eq_add_one, Nat.sub_add_cancel hpos]
  unfold IntType.Fits IntType.minValue IntType.maxValue at h
  unfold value wrap BitPattern.ofInt BitPattern.toInt BitPattern.toNat
  cases signed
  · simp only [Bool.false_eq_true, if_false] at h ⊢
    rw [BitVec.toNat_ofInt, ← Nat.pow_eq, Int.emod_eq_of_lt h.1 (by omega)]
    omega
  · simp only [if_true] at h ⊢
    rw [BitVec.toInt_ofInt, ← Nat.pow_eq]
    exact Int.bmod_eq_of_le (by omega) (by omega)

end FixedInt

end MachineNumbers
