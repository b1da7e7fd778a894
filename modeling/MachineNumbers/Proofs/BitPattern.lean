import Mathlib
import MachineNumbers.BitPattern.Stored
import MachineNumbers.Proofs.Positional

/-!
# Bit patterns bit by bit

Every bit of a shifted pattern is a bit of the pattern, found by the arithmetic of its place, or it is
clear (`ShiftKind.source`, `bit_shift`).  The same holds of the opposite byte order (`bit_swapBytes`) and of
another width (`bit_changeWidth`).
-/

namespace MachineNumbers

/-- Where the bit at place `i` of a shifted pattern comes from; none if it is clear. -/
def ShiftKind.source (kind : ShiftKind) (w n i : ℕ) : Option ℕ :=
  match kind with
  | left => if n ≤ i then some (i - n) else none
  | right => if i + n < w then some (i + n) else none
  | rightSigned => some (min (i + n) (w - 1))
  | maskingLeft => if n % w ≤ i then some (i - n % w) else none
  | maskingRight => if i + n % w < w then some (i + n % w) else none
  | maskingRightSigned => some (min (i + n % w) (w - 1))
  | rotateLeft => some (((i : ℤ) - n) % w).toNat
  | rotateRight => some ((i + n) % w)

namespace BitPattern

variable {w : ℕ}

def bitFrom (p : BitPattern w) (source : Option ℕ) : Bool := source.elim false p.bit

/-- Patterns are known by their bits. -/
theorem eq_of_bit {p q : BitPattern w} (h : ∀ i < w, p.bit i = q.bit i) : p = q := by
  obtain ⟨a⟩ := p
  obtain ⟨b⟩ := q
  have : a = b := BitVec.eq_of_getLsbD_eq h
  rw [this]

/-! ## Making -/

theorem bit_ofNat (n i : ℕ) : (ofNat w n).bit i = (decide (i < w) && n.testBit i) :=
  BitVec.getLsbD_ofNat w n i

theorem bit_allOnes (i : ℕ) : (allOnes : BitPattern w).bit i = decide (i < w) :=
  BitVec.getLsbD_allOnes

theorem bit_complement (p : BitPattern w) (i : ℕ) : (~~~p).bit i = (decide (i < w) && !p.bit i) :=
  BitVec.getLsbD_not

/-- The sign bit is the top bit. -/
theorem signBit_eq (p : BitPattern w) : p.signBit = p.bit (w - 1) := by
  show p.toBitVec.msb = p.toBitVec.getLsbD (w - 1)
  rw [BitVec.msb_eq_getLsbD_last]

/-! ## Shifts -/

variable {n i : ℕ}

/-- Places past the top hold the sign. -/
theorem bit_shiftRightSigned (p : BitPattern w) (hi : i < w) :
    (p.shiftRightSigned n).bit i = p.bit (min (i + n) (w - 1)) := by
  have hshift : ∀ m, (⟨p.toBitVec.sshiftRight m⟩ : BitPattern w).bit i =
      if m + i < w then p.bit (m + i) else p.signBit := by
    intro m
    show (p.toBitVec.sshiftRight m).getLsbD i = _
    rw [BitVec.getLsbD_sshiftRight, decide_eq_false (by omega), Bool.not_false, Bool.true_and]
    rfl
  unfold shiftRightSigned
  rw [hshift, signBit_eq]
  split
  · split
    · congr 1
      omega
    · congr 1
      omega
  · split
    · congr 1
      omega
    · congr 1
      omega

/-- A rotation moves places round the width. -/
theorem bit_rotateLeft (p : BitPattern w) (hi : i < w) :
    (p.rotateLeft n).bit i = p.bit (((i : ℤ) - n) % w).toNat := by
  have hn := Nat.mod_lt n (Nat.zero_lt_of_lt hi)
  -- the amount may be reduced first
  have hmod : ((i : ℤ) - n) % w = ((i : ℤ) - (n % w : ℕ)) % w := by
    push_cast
    rw [Int.sub_emod_emod]
  show (p.toBitVec.rotateLeft n).getLsbD i = _
  rw [BitVec.getLsbD_rotateLeft, hmod, Bool.cond_decide]
  split
  · next hlt =>
    rw [← Int.add_emod_right, Int.emod_eq_of_lt (by omega) (by omega)]
    show p.bit _ = _
    congr 1
    omega
  · next hge =>
    rw [Int.emod_eq_of_lt (by omega) (by omega), decide_eq_true hi, Bool.true_and]
    show p.bit _ = _
    congr 1
    omega

theorem bit_rotateRight (p : BitPattern w) (hi : i < w) :
    (p.rotateRight n).bit i = p.bit ((i + n) % w) := by
  have hn := Nat.mod_lt n (Nat.zero_lt_of_lt hi)
  show (p.toBitVec.rotateRight n).getLsbD i = _
  rw [BitVec.getLsbD_rotateRight, Bool.cond_decide]
  split
  · next hlt =>
    have hplace : (i + n) % w = n % w + i := by
      rw [← Nat.add_mod_mod, Nat.mod_eq_of_lt (by omega : i + n % w < w), Nat.add_comm]
    rw [hplace]
    rfl
  · next hge =>
    have hplace : (i + n) % w = i - (w - n % w) := by
      rw [← Nat.add_mod_mod, Nat.mod_eq_sub_mod (by omega), Nat.mod_eq_of_lt (by omega)]
      omega
    rw [hplace, decide_eq_true hi, Bool.true_and]
    rfl

/-- Every bit of a shifted pattern comes from its source. -/
theorem bit_shift (kind : ShiftKind) (p : BitPattern w) (n : ℕ) (hi : i < w) :
    (kind.apply p n).bit i = p.bitFrom (kind.source w n i) := by
  have hleft : ∀ m, (p.shiftLeft m).bit i = p.bitFrom (if m ≤ i then some (i - m) else none) := by
    intro m
    rw [bit_shiftLeft, decide_eq_true hi, Bool.true_and]
    by_cases hm : m ≤ i
    · rw [if_pos hm, decide_eq_false (by omega)]
      rfl
    · rw [if_neg hm, decide_eq_true (by omega)]
      rfl
  have hright : ∀ m, (p.shiftRight m).bit i =
      p.bitFrom (if i + m < w then some (i + m) else none) := by
    intro m
    rw [bit_shiftRight, Nat.add_comm]
    by_cases hm : i + m < w
    · rw [if_pos hm]
      rfl
    · rw [if_neg hm, bit_of_le p _ (by omega)]
      rfl
  cases kind with
  | left => exact hleft n
  | right => exact hright n
  | rightSigned => exact bit_shiftRightSigned p hi
  | maskingLeft => exact hleft (n % w)
  | maskingRight => exact hright (n % w)
  | maskingRightSigned => exact bit_shiftRightSigned p hi
  | rotateLeft => exact bit_rotateLeft p hi
  | rotateRight => exact bit_rotateRight p hi

/-! ## Byte order -/

/-- A bit of a number is a bit of one of its bytes. -/
theorem testBit_ofDigits {ds : List ℕ} (h : ∀ d ∈ ds, d < 256) (j : ℕ) :
    (Positional.ofDigits 256 ds).testBit j = (ds.reverse[j / 8]?.getD 0).testBit (j % 8) := by
  induction ds using List.reverseRecOn generalizing j with
  | nil => simp [Positional.ofDigits_nil]
  | append_singleton ds d ih =>
    have hd : d < 2 ^ 8 := h d (by simp)
    have hds : ∀ x ∈ ds, x < 256 := fun x hx => h x (by simp [hx])
    rw [Positional.ofDigits_append_singleton, Nat.mul_comm, List.reverse_append,
      List.reverse_singleton, List.singleton_append]
    refine (Nat.testBit_two_pow_mul_add _ hd j).trans ?_
    split
    · next hj =>
      rw [Nat.div_eq_of_lt hj, Nat.mod_eq_of_lt hj]
      rfl
    · next hj =>
      have hdiv : j / 8 = (j - 8) / 8 + 1 := by omega
      rw [ih hds, hdiv, List.getElem?_cons_succ]
      congr 1
      omega

theorem byte_lt (p : BitPattern w) (k : ℕ) : p.byte k < 256 := Nat.mod_lt _ (by decide)

theorem testBit_byte (p : BitPattern w) {j : ℕ} (hj : j < 8) (k : ℕ) :
    (p.byte k).testBit j = p.bit (8 * k + j) := by
  have hpow : Nat.pow 256 k = 2 ^ (8 * k) := by
    rw [pow_mul]
    rfl
  unfold byte
  rw [hpow, show 256 = 2 ^ 8 from rfl, Nat.testBit_mod_two_pow, decide_eq_true hj, Bool.true_and,
    Nat.testBit_div_two_pow, Nat.add_comm]
  rfl

/-- The place in the opposite order of bytes: the same place in the byte that is as far from the other
end. -/
def swapPlace (w i : ℕ) : ℕ := 8 * (w / 8 - 1 - i / 8) + i % 8

/-- Bytes change places from end to end, with their bits in order. -/
theorem bit_swapBytes (p : BitPattern w) (hw : 8 ∣ w) (hi : i < w) :
    p.swapBytes.bit i = p.bit (swapPlace w i) := by
  have hbytes : ∀ d ∈ (List.range (w / 8)).map p.byte, d < 256 := by
    intro d hd
    obtain ⟨k, -, rfl⟩ := List.mem_map.1 hd
    exact p.byte_lt k
  have hfold : (List.range (w / 8)).foldl (fun n k => n * 256 + p.byte k) 0 =
      Positional.ofDigits 256 ((List.range (w / 8)).map p.byte) := by
    rw [Positional.ofDigits, List.foldl_map]
  have hk : i / 8 < w / 8 := by omega
  unfold swapBytes
  rw [bit_ofNat, decide_eq_true hi, Bool.true_and, hfold, testBit_ofDigits hbytes,
    List.getElem?_reverse (by simpa using hk)]
  simp only [List.length_map, List.length_range, List.getElem?_map]
  rw [List.getElem?_range (by omega), Option.map_some, Option.getD_some,
    testBit_byte p (Nat.mod_lt _ (by decide))]
  rfl

/-! ## Change of width -/

/-- The bits of the pattern, and above them its top bit or none. -/
theorem bit_changeWidth (change : WidthChange) (p : BitPattern w) {v : ℕ}
    (hallows : change.Allows w v) (hi : i < v) :
    (change.apply p v).bit i =
      if i < w then p.bit i else change.fillsWithSign && p.signBit := by
  have hsigned : (p.signExtend v).bit i = if i < w then p.bit i else true && p.signBit := by
    show (p.toBitVec.signExtend v).getLsbD i = _
    rw [BitVec.getLsbD_signExtend, decide_eq_true hi, Bool.true_and, Bool.true_and]
    rfl
  have hunsigned : (⟨p.toBitVec.setWidth v⟩ : BitPattern v).bit i =
      if i < w then p.bit i else false && p.signBit := by
    show (p.toBitVec.setWidth v).getLsbD i = _
    rw [BitVec.getLsbD_setWidth, decide_eq_true hi, Bool.true_and, Bool.false_and]
    split
    · rfl
    · next hge => exact p.bit_of_le i (not_lt.1 hge)
  cases change with
  | signExtend => exact hsigned
  | zeroExtend => exact hunsigned
  | truncate => exact hunsigned
  | resize signed =>
    cases signed
    · exact hunsigned
    · exact hsigned

end BitPattern

end MachineNumbers
