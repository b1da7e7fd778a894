import MachineNumbers.BinaryFloat.ByteReader
import MachineNumbers.BinaryFloat.Checked.Kernels
import MachineNumbers.BinaryFloat.Checked.Operations
import MachineNumbers.BinaryFloat.Checked.Packing
import MachineNumbers.BinaryFloat.Class
import MachineNumbers.BinaryFloat.Text
import MachineNumbers.BitPattern.Stored
import MachineNumbers.Decimal.Checked
import MachineNumbers.Decimal.Digits.Checked
import MachineNumbers.FixedInt.Numeral
import MachineNumbers.FixedInt.Text
import MachineNumbers.Limbs.Checked
import MachineNumbers.MachineWord
import MachineNumbers.Numeric
import MachineNumbers.Proofs.Arithmetic.Fused
import MachineNumbers.Proofs.BitPattern
import MachineNumbers.Proofs.BitPattern.Stored
import MachineNumbers.Proofs.Canonical
import MachineNumbers.Proofs.Checked.Alignment
import MachineNumbers.Proofs.Checked.Kernels
import MachineNumbers.Proofs.Checked.Operations
import MachineNumbers.Proofs.Checked.Packing
import MachineNumbers.Proofs.Conversion
import MachineNumbers.Proofs.CorrectRounding
import MachineNumbers.Proofs.CorrectRounding.SquareRoot
import MachineNumbers.Proofs.Decimal.Checked
import MachineNumbers.Proofs.Decimal.Digits.CarryFree
import MachineNumbers.Proofs.Decimal.Digits.Checked
import MachineNumbers.Proofs.Decimal.Digits.Closest
import MachineNumbers.Proofs.Decimal.Digits.Loops
import MachineNumbers.Proofs.Decimal.Division
import MachineNumbers.Proofs.Decimal.Padding
import MachineNumbers.Proofs.ExactRemainder
import MachineNumbers.Proofs.FixedInt.Arithmetic
import MachineNumbers.Proofs.FixedInt.Conversion
import MachineNumbers.Proofs.FixedInt.FullProduct
import MachineNumbers.Proofs.FixedInt.Numeral
import MachineNumbers.Proofs.FixedInt.RingOp
import MachineNumbers.Proofs.FixedInt.RoundTrip
import MachineNumbers.Proofs.FixedInt.Sums
import MachineNumbers.Proofs.FixedInt.Truncation
import MachineNumbers.Proofs.Integral.Exact
import MachineNumbers.Proofs.Limbs.Checked
import MachineNumbers.Proofs.Limbs.Expression
import MachineNumbers.Proofs.Limbs.Splitting
import MachineNumbers.Proofs.MachineWord
import MachineNumbers.Proofs.Neighbour.Adjacent
import MachineNumbers.Proofs.Neighbour.Parts
import MachineNumbers.Proofs.Neighbour.Spacing
import MachineNumbers.Proofs.Order
import MachineNumbers.Proofs.Reading.Grammar
import MachineNumbers.Proofs.Repacking
import MachineNumbers.Proofs.Stride.Rounding
import MachineNumbers.Proofs.Writing
import MachineNumbers.Proofs.Writing.Layout
import MachineNumbers.Proofs.Writing.NaN
