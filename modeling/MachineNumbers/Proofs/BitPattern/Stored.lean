import Mathlib
import MachineNumbers.Proofs.BitPattern
import MachineNumbers.Proofs.FixedInt.Shift
import MachineNumbers.Proofs.MachineWord

/-!
# Stored patterns stay canonical

A word stores a pattern if it has the pattern's bits and none above (`Stores`).  Every operation takes
stored patterns to stored patterns without a step that the machine leaves open, whatever the amount
(`shift?_stores`), so every combination does (`PatternExpr.word?_stores`), and each bit of the result is the
bit of its source (`stored_patterns_canonical`).
-/

namespace MachineNumbers

theorem IsWordWidth.bounds {w : ℕ} (hw : IsWordWidth w) : 0 < w ∧ w ≤ 64 ∧ 8 ∣ w := by
  unfold IsWordWidth at hw
  omega

namespace StoredPattern

open MachineWord (bind_of_some difference? difference?_of_le)

/-- A step has a result, and this has these bits. -/
def HasBits (step : Option (BitVec 64)) (bits : ℕ → Bool) : Prop :=
  ∃ a, step = some a ∧ ∀ i, a.getLsbD i = bits i

/-- The word has the bits of the pattern, and none from the width on. -/
def Stores {w : ℕ} (a : BitVec 64) (p : BitPattern w) : Prop := ∀ i, a.getLsbD i = p.bit i

theorem HasBits.of_some {a : BitVec 64} {bits : ℕ → Bool} (h : ∀ i, a.getLsbD i = bits i) :
    HasBits (some a) bits :=
  ⟨a, rfl, h⟩

/-- The bits of a step in another form. -/
theorem HasBits.congr {step : Option (BitVec 64)} {bits bits' : ℕ → Bool} (h : HasBits step bits)
    (heq : ∀ i, bits i = bits' i) : HasBits step bits' := by
  obtain ⟨a, ha, hbits⟩ := h
  exact ⟨a, ha, fun i => (hbits i).trans (heq i)⟩

/-- One step and then another. -/
theorem HasBits.bind {step : Option (BitVec 64)} {next : BitVec 64 → Option (BitVec 64)}
    {bits bits' : ℕ → Bool} (h : HasBits step bits)
    (hnext : ∀ a : BitVec 64, (∀ i, a.getLsbD i = bits i) → HasBits (next a) bits') :
    HasBits (step >>= next) bits' := by
  obtain ⟨a, ha, hbits⟩ := h
  rw [bind_of_some ha]
  exact hnext a hbits

/-! ## Steps of the machine -/

variable {a b : BitVec 64} {n : ℕ}

theorem up?_hasBits (hn : n < 64) :
    HasBits (up? a n) fun i => decide (i < 64) && !decide (i < n) && a.getLsbD (i - n) :=
  ⟨a <<< n, if_pos hn, fun _ => BitVec.getLsbD_shiftLeft a n⟩

theorem down?_hasBits (hn : n < 64) : HasBits (down? a n) fun i => a.getLsbD (n + i) :=
  ⟨a >>> n, if_pos hn, BitVec.getLsbD_ushiftRight a n⟩

theorem downSigned?_hasBits (hn : n < 64) : HasBits (downSigned? a n) fun i =>
    !decide (64 ≤ i) && if n + i < 64 then a.getLsbD (n + i) else a.msb :=
  ⟨a.sshiftRight n, if_pos hn, BitVec.getLsbD_sshiftRight a n⟩

theorem mask?_hasBits {w : ℕ} (hw : IsWordWidth w) : HasBits (mask? w) fun i => decide (i < w) := by
  have hbounds := hw.bounds
  unfold mask?
  rw [bind_of_some (difference?_of_le (by omega))]
  refine (down?_hasBits (by omega)).congr fun i => ?_
  rw [BitVec.getLsbD_allOnes, decide_eq_decide]
  omega

/-- Making a pattern clears the bits above it. -/
theorem make?_hasBits {w : ℕ} (hw : IsWordWidth w) (a : BitVec 64) :
    HasBits (make? w a) fun i => decide (i < w) && a.getLsbD i := by
  unfold make?
  refine (mask?_hasBits hw).bind fun m hm => .of_some fun i => ?_
  rw [BitVec.getLsbD_and, hm, Bool.and_comm]

/-! ## Operations -/

variable {w : ℕ} {p q : BitPattern w}

/-- A stored pattern leaves the word clear above its width. -/
theorem Stores.eq_false (h : Stores a p) {i : ℕ} (hi : w ≤ i) : a.getLsbD i = false :=
  (h i).trans (p.bit_of_le i hi)

theorem stores_zero : Stores 0 (BitPattern.zero : BitPattern w) := by
  intro i
  rw [BitPattern.bit_zero]
  exact BitVec.getLsbD_zero

/-- What is made of a word with the bits of a pattern below the width is the pattern. -/
theorem make?_stores (hw : IsWordWidth w) (h : ∀ i < w, a.getLsbD i = p.bit i) :
    HasBits (make? w a) p.bit := by
  refine (make?_hasBits hw a).congr fun i => ?_
  by_cases hi : i < w
  · rw [decide_eq_true hi, Bool.true_and, h i hi]
  · rw [decide_eq_false hi, Bool.false_and, p.bit_of_le i (not_lt.1 hi)]

/-- Reading as signed copies the top bit through the word. -/
theorem getSigned?_hasBits (hw : IsWordWidth w) (h : Stores a p) : HasBits (getSigned? w a) fun i =>
    if i < w then p.bit i else decide (i < 64) && p.signBit := by
  have hbounds := hw.bounds
  unfold getSigned?
  rw [bind_of_some (difference?_of_le (by omega))]
  refine (up?_hasBits (by omega)).bind fun b hb => ?_
  refine (downSigned?_hasBits (by omega)).congr fun i => ?_
  have htop : b.msb = p.signBit := by
    rw [BitVec.msb_eq_getLsbD_last, hb, h, BitPattern.signBit_eq, decide_eq_true (by omega),
      decide_eq_false (by omega), Bool.not_false, Bool.true_and, Bool.true_and]
    congr 1
    omega
  rw [htop]
  by_cases hi : i < w
  · rw [if_pos hi, if_pos (by omega), decide_eq_false (by omega), hb, h, decide_eq_true (by omega),
      decide_eq_false (by omega), Bool.not_false, Bool.true_and, Bool.true_and, Bool.true_and]
    congr 1
    omega
  · rw [if_neg hi, if_neg (by omega)]
    by_cases hi' : i < 64
    · rw [decide_eq_true hi', decide_eq_false (by omega)]
      rfl
    · rw [decide_eq_false hi', decide_eq_true (by omega)]
      rfl

theorem shiftLeft?_stores (hw : IsWordWidth w) (h : Stores a p) (n : ℕ) :
    HasBits (shiftLeft? w a n) (p.shiftLeft n).bit := by
  have hbounds := hw.bounds
  unfold shiftLeft?
  by_cases hn : w ≤ n
  · rw [if_pos hn]
    refine .of_some fun i => ?_
    rw [BitPattern.shiftLeft, if_pos hn]
    exact stores_zero i
  · rw [if_neg hn]
    refine (up?_hasBits (by omega)).bind fun b hb => make?_stores hw fun i hi => ?_
    rw [hb, h, BitPattern.bit_shiftLeft, decide_eq_true hi, decide_eq_true (by omega : i < 64)]

theorem shiftRight?_stores (hw : IsWordWidth w) (h : Stores a p) (n : ℕ) :
    HasBits (shiftRight? w a n) (p.shiftRight n).bit := by
  have hbounds := hw.bounds
  unfold shiftRight?
  by_cases hn : w ≤ n
  · rw [if_pos hn]
    refine .of_some fun i => ?_
    rw [BitPattern.shiftRight, if_pos hn]
    exact stores_zero i
  · rw [if_neg hn]
    refine (down?_hasBits (by omega)).congr fun i => ?_
    rw [h, BitPattern.bit_shiftRight]

/-- The arithmetic shift runs on the word with its sign spread over it. -/
theorem shiftRightSigned?_stores (hw : IsWordWidth w) (h : Stores a p) (n : ℕ) :
    HasBits (shiftRightSigned? w a n) (p.shiftRightSigned n).bit := by
  have hbounds := hw.bounds
  obtain ⟨m, hm, hlt, hmin⟩ : ∃ m, signedAmount? w n = some m ∧
      m < w ∧ ∀ i < w, min (i + m) (w - 1) = min (i + n) (w - 1) := by
    unfold signedAmount?
    by_cases hn : w ≤ n
    · rw [if_pos hn]
      exact ⟨w - 1, difference?_of_le (by omega), by omega, by omega⟩
    · rw [if_neg hn]
      exact ⟨n, rfl, by omega, by omega⟩
  unfold shiftRightSigned?
  rw [bind_of_some hm]
  refine (getSigned?_hasBits hw h).bind fun b hb => ?_
  refine (downSigned?_hasBits (by omega)).bind fun c hc => make?_stores hw fun i hi => ?_
  have htop : b.msb = p.signBit := by
    rw [BitVec.msb_eq_getLsbD_last, hb, BitPattern.signBit_eq]
    split
    · congr 1
      omega
    · rw [decide_eq_true (by omega), Bool.true_and]
  rw [hc, hb, htop, BitPattern.bit_shiftRightSigned p hi, ← hmin i hi, BitPattern.signBit_eq,
    decide_eq_false (by omega), Bool.not_false, Bool.true_and]
  by_cases hplace : m + i < w
  · rw [if_pos (by omega), if_pos hplace]
    congr 1
    omega
  · rw [min_eq_right (by omega), if_neg hplace]
    split
    · rw [decide_eq_true (by omega), Bool.true_and]
    · rfl

theorem rotateLeft?_stores (hw : IsWordWidth w) (h : Stores a p) (n : ℕ) :
    HasBits (rotateLeft? w a n) (p.rotateLeft n).bit := by
  have hbounds := hw.bounds
  have hmod := Nat.mod_lt n hbounds.1
  unfold rotateLeft?
  dsimp only
  by_cases hzero : n % w = 0
  · rw [if_pos hzero]
    refine .of_some fun i => ?_
    have hrotate : p.rotateLeft n = p := by
      apply BitPattern.eq_of_bit
      intro j hj
      obtain ⟨k, hk⟩ := Nat.dvd_of_mod_eq_zero hzero
      have hplace : ((j : ℤ) - n) % w = j := by
        rw [hk, Nat.cast_mul, Int.sub_mul_emod_self_left, Int.emod_eq_of_lt (by omega) (by omega)]
      rw [BitPattern.bit_rotateLeft p hj, hplace, Int.toNat_natCast]
    rw [hrotate]
    exact h i
  · rw [if_neg hzero]
    refine (up?_hasBits (by omega)).bind fun high hhigh => ?_
    rw [bind_of_some (difference?_of_le (by omega))]
    refine (down?_hasBits (by omega)).bind fun low hlow => make?_stores hw fun i hi => ?_
    have hbit : (p.rotateLeft n).bit i =
        if i < n % w then p.bit (w - n % w + i) else p.bit (i - n % w) := by
      show (p.toBitVec.rotateLeft n).getLsbD i = _
      rw [BitVec.getLsbD_rotateLeft, Bool.cond_decide, decide_eq_true hi, Bool.true_and]
      rfl
    rw [hbit, BitVec.getLsbD_or, hhigh, hlow, h, h, decide_eq_true (by omega : i < 64)]
    -- of the two words, one has nothing at this place
    split
    · next hlt =>
      rw [decide_eq_true hlt]
      simp
    · next hge =>
      rw [decide_eq_false hge, p.bit_of_le (w - n % w + i) (by omega)]
      simp

theorem rotateRight?_stores (hw : IsWordWidth w) (h : Stores a p) (n : ℕ) :
    HasBits (rotateRight? w a n) (p.rotateRight n).bit := by
  have hbounds := hw.bounds
  have hmod := Nat.mod_lt n hbounds.1
  have hrotate : p.rotateRight n = p.rotateLeft (w - n % w) := by
    apply BitPattern.eq_of_bit
    intro i hi
    have hplace : ((i : ℤ) - (w - n % w : ℕ)) % w = ((i + n) % w : ℕ) := by
      rw [Nat.cast_sub hmod.le]
      push_cast
      rw [show (i : ℤ) - (w - n % w) = (i + n % w) - w by ring, Int.sub_emod_right,
        Int.add_emod_emod]
    rw [BitPattern.bit_rotateRight p hi, BitPattern.bit_rotateLeft p hi, hplace, Int.toNat_natCast]
  unfold rotateRight?
  rw [bind_of_some (difference?_of_le hmod.le), hrotate]
  exact rotateLeft?_stores hw h _

/-- No amount makes a shift fail, and the result is the shifted pattern. -/
theorem shift?_stores (kind : ShiftKind) (hw : IsWordWidth w) (h : Stores a p) (n : ℕ) :
    HasBits (shift? kind w a n) (kind.apply p n).bit := by
  cases kind with
  | left => exact shiftLeft?_stores hw h n
  | right => exact shiftRight?_stores hw h n
  | rightSigned => exact shiftRightSigned?_stores hw h n
  | maskingLeft => exact shiftLeft?_stores hw h (n % w)
  | maskingRight => exact shiftRight?_stores hw h (n % w)
  | maskingRightSigned => exact shiftRightSigned?_stores hw h (n % w)
  | rotateLeft => exact rotateLeft?_stores hw h n
  | rotateRight => exact rotateRight?_stores hw h n

theorem swapBytes?_stores (hw : IsWordWidth w) (h : Stores a p) :
    HasBits (swapBytes? w a) p.swapBytes.bit := by
  obtain ⟨hpos, hle, hdvd⟩ := hw.bounds
  unfold swapBytes?
  rw [bind_of_some (difference?_of_le (by omega))]
  refine (down?_hasBits (by omega)).congr fun i => ?_
  show (BitPattern.ofBitVec a).swapBytes.bit (64 - w + i) = _
  by_cases hi : i < w
  · rw [BitPattern.bit_swapBytes _ (by decide) (by omega), BitPattern.bit_swapBytes p hdvd hi]
    show a.getLsbD _ = _
    rw [h]
    unfold BitPattern.swapPlace
    congr 1
    omega
  · rw [BitPattern.bit_of_le _ _ (by omega), BitPattern.bit_of_le _ _ (by omega)]

theorem complement?_stores (hw : IsWordWidth w) (h : Stores a p) :
    HasBits (complement? w a) (~~~p).bit := by
  have hbounds := hw.bounds
  refine make?_stores hw fun i hi => ?_
  rw [BitVec.getLsbD_not, h, BitPattern.bit_complement, decide_eq_true hi,
    decide_eq_true (by omega : i < 64)]

/-- Bitwise operations on clear words leave them clear. -/
theorem onWords_stores (op : BitwiseOp) (ha : Stores a p) (hb : Stores b q) :
    Stores (op.onWords a b) (op.apply p q) := by
  intro i
  cases op with
  | and => exact BitVec.getLsbD_and.trans (by rw [ha, hb]; exact (p.bit_and q i).symm)
  | or => exact BitVec.getLsbD_or.trans (by rw [ha, hb]; exact (p.bit_or q i).symm)
  | xor => exact BitVec.getLsbD_xor.trans (by rw [ha, hb]; exact (p.bit_xor q i).symm)

theorem resize?_stores (change : WidthChange) (hw : IsWordWidth w) {v : ℕ} (hv : IsWordWidth v)
    (hallows : change.Allows w v) (h : Stores a p) :
    HasBits (resize? w a change.fillsWithSign v) (change.apply p v).bit := by
  have hbounds := hv.bounds
  have hbit : ∀ i < v, (change.apply p v).bit i =
      if i < w then p.bit i else change.fillsWithSign && p.signBit :=
    fun i hi => BitPattern.bit_changeWidth change p hallows hi
  unfold resize?
  cases hsigned : change.fillsWithSign with
  | true =>
    rw [if_pos rfl]
    refine (getSigned?_hasBits hw h).bind fun b hb => make?_stores hv fun i hi => ?_
    rw [hb, hbit i hi, hsigned, decide_eq_true (by omega : i < 64)]
  | false =>
    rw [if_neg Bool.false_ne_true]
    refine make?_stores hv fun i hi => ?_
    rw [h, hbit i hi, hsigned, Bool.false_and]
    split
    · rfl
    · next hge => exact p.bit_of_le i (not_lt.1 hge)

end StoredPattern

namespace PatternExpr

open StoredPattern

/-- Every expression is over one of the widths of the machine. -/
theorem isWordWidth {w : ℕ} (e : PatternExpr w) : IsWordWidth w := by
  induction e with
  | make hw _ => exact hw
  | zero hw => exact hw
  | allOnes hw => exact hw
  | bitwise _ _ _ ih _ => exact ih
  | complement _ ih => exact ih
  | shift _ _ _ ih => exact ih
  | swapBytes _ ih => exact ih
  | changeWidth _ _ hv _ _ => exact hv

/-- Whatever operations build a pattern, the machine has a word for it, and it stores the pattern. -/
theorem word?_stores {w : ℕ} (e : PatternExpr w) : HasBits e.word? e.pattern.bit := by
  induction e with
  | make hw bits =>
    refine (make?_hasBits hw bits).congr fun i => ?_
    exact (BitPattern.bit_ofNat bits.toNat i).symm
  | zero _ => exact .of_some stores_zero
  | allOnes hw =>
    refine (mask?_hasBits hw).congr fun i => ?_
    exact (BitPattern.bit_allOnes i).symm
  | bitwise op _ _ ihp ihq =>
    exact ihp.bind fun a ha => ihq.bind fun b hb => .of_some (onWords_stores op ha hb)
  | complement p ih => exact ih.bind fun a ha => complement?_stores p.isWordWidth ha
  | shift kind p n ih => exact ih.bind fun a ha => shift?_stores kind p.isWordWidth ha n
  | swapBytes p ih => exact ih.bind fun a ha => swapBytes?_stores p.isWordWidth ha
  | changeWidth change p hv hallows ih =>
    exact ih.bind fun a ha => resize?_stores change p.isWordWidth hv hallows ha

/-- Patterns stay canonical and shifts are total.  Whatever operations build a pattern, no step is left
open by the machine, and its word has the bits of the pattern and none from the width on.  Each bit of a
shifted pattern comes from its source, for every amount; the opposite byte order and another width are
as exact; and so a shift of an integer to the right rounds its quotient by a power of two down, and one to
the left keeps the residue of its product. -/
theorem stored_patterns_canonical :
    (∀ {w : ℕ} (e : PatternExpr w), ∃ a, e.word? = some a ∧
      (∀ i, w ≤ i → a.getLsbD i = false) ∧ ∀ i, i < w → a.getLsbD i = e.pattern.bit i) ∧
    (∀ {w : ℕ}, IsWordWidth w → ∀ (p : BitPattern w) (i : ℕ), i < w →
      (∀ (kind : ShiftKind) (n : ℕ),
        (kind.apply p n).bit i = p.bitFrom (kind.source w n i)) ∧
      p.swapBytes.bit i = p.bit (8 * (w / 8 - 1 - i / 8) + i % 8) ∧
      p.signBit = p.bit (w - 1)) ∧
    (∀ (change : WidthChange) {w v : ℕ} (p : BitPattern w), change.Allows w v → ∀ i, i < v →
      (change.apply p v).bit i = if i < w then p.bit i else change.fillsWithSign && p.signBit) ∧
    (∀ (ty : IntType) (a : FixedInt ty) (n : ℕ),
      (a.shiftRight n).value = ⌊(a.value : ℚ) / 2 ^ n⌋ ∧
      (a.shiftLeft n).value ≡ a.value * 2 ^ n [ZMOD 2 ^ ty.width]) := by
  refine ⟨?_, ?_, ?_, ?_⟩
  · intro w e
    obtain ⟨a, ha, hbits⟩ := e.word?_stores
    refine ⟨a, ha, ?_, fun i _ => hbits i⟩
    intro i hi
    exact Stores.eq_false hbits hi
  · intro w hw p i hi
    refine ⟨fun kind n => BitPattern.bit_shift kind p n hi, ?_, p.signBit_eq⟩
    exact BitPattern.bit_swapBytes p hw.bounds.2.2 hi
  · intro change w v p hallows i hi
    exact BitPattern.bit_changeWidth change p hallows hi
  · intro ty a n
    exact ⟨a.value_shiftRight n, a.value_shiftLeft_modEq n⟩

/-- The pattern `1000_0000`, shifted down by 200 places with its sign, with the bytes `81 00` swapped, and
widened with its sign; and -128 shifted by 9 places. -/
theorem stored_patterns_canonical_top :
    (∃ a, (PatternExpr.shift .rightSigned (.make (w := 8) (by decide) 0x80) 200).word? = some a ∧
      (∀ i, 8 ≤ i → a.getLsbD i = false) ∧
      ∀ i, i < 8 → a.getLsbD i =
        (BitPattern.shiftRightSigned (.ofNat 8 0x80) 200 : BitPattern 8).bit i) ∧
    (IsWordWidth 8 ∧ 3 < 8 ∧
      (ShiftKind.rightSigned.apply (.ofNat 8 0x80 : BitPattern 8) 200).bit 3 =
        (BitPattern.ofNat 8 0x80).bit 7) ∧
    (IsWordWidth 16 ∧ 7 < 16 ∧
      (BitPattern.ofNat 16 0x8100).swapBytes.bit 7 = (BitPattern.ofNat 16 0x8100).bit 15) ∧
    ((WidthChange.resize true).Allows 8 16 ∧ 12 < 16 ∧
      ((WidthChange.resize true).apply (.ofNat 8 0x80 : BitPattern 8) 16).bit 12 =
        (true && (BitPattern.ofNat 8 0x80).signBit)) ∧
    ((FixedInt.wrap (-128) : FixedInt { width := 8, signed := true }).shiftRight 9).value =
      ⌊((FixedInt.wrap (-128) : FixedInt { width := 8, signed := true }).value : ℚ) / 2 ^ 9⌋ := by
  obtain ⟨hwords, hbits, hwidths, hints⟩ := stored_patterns_canonical
  obtain ⟨hshift, -, -⟩ := hbits (w := 8) (by decide) (.ofNat 8 0x80) 3 (by decide)
  obtain ⟨-, hswap, -⟩ := hbits (w := 16) (by decide) (.ofNat 16 0x8100) 7 (by decide)
  exact ⟨hwords _, ⟨by decide, by decide, hshift .rightSigned 200⟩,
    ⟨by decide, by decide, hswap⟩,
    ⟨trivial, by decide, hwidths (.resize true) (.ofNat 8 0x80) trivial 12 (by decide)⟩,
    (hints _ _ 9).1⟩

end PatternExpr

end MachineNumbers
