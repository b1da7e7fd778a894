/-! # Word widths -/

namespace MachineNumbers

/-- The widths of machine words. -/
def IsWordWidth (w : Nat) : Prop := w = 8 ∨ w = 16 ∨ w = 32 ∨ w = 64

instance (w : Nat) : Decidable (IsWordWidth w) := by unfold IsWordWidth; infer_instance

end MachineNumbers
