import Mathlib
import MachineNumbers.Proofs.NaN
import MachineNumbers.Proofs.Neighbour

/-!
# Flushing keeps subnormals out

A `Call` is one call of any function that takes a mode for subnormals and gives a float.  In the mode that
flushes its result is canonical (`Call.isCanonical_eval`), and it cannot tell a subnormal operand from the
zero of its sign (`Call.eval_flushed`).  A `Run` is any number of calls that take their operands from the
inputs and from earlier results: all its results are canonical (`Run.isCanonical`), and it is a run on the
flushed inputs as well (`Run.flushed`).
-/

namespace MachineNumbers

namespace BinaryFloat

variable {fmt : FloatFormat} {x : BinaryFloat fmt}

/-! ## Packing -/

/-- Bits from the leading one down to `q` fill the binade of normal numbers. -/
theorem hiddenBit_le_significandAt {u : Unpacked} {q : ℤ} (hsig : u.sig ≠ 0) (hlt : u.sig < 2 ^ 128)
    (hq : u.leadExp = q + fmt.fractionBits) (sticky : Bool) :
    fmt.hiddenBit ≤ u.significandAt q sticky := by
  unfold Unpacked.leadExp at hq
  rw [fmt.hiddenBit_eq]
  unfold Unpacked.significandAt
  split
  · next hle =>
    obtain ⟨shift, hshift⟩ := Int.eq_ofNat_of_zero_le (Int.sub_nonneg.2 hle)
    rw [hshift, Int.toNat_natCast, show fmt.fractionBits = u.sig.log2 + shift by omega]
    exact (shiftLeft_bounds hsig shift).1
  · next hgt =>
    obtain ⟨shift, hshift⟩ := Int.eq_ofNat_of_zero_le (show 0 ≤ q - u.exp by omega)
    rw [hshift, Int.toNat_natCast, shiftRightNearest_eq hlt]
    refine le_add_right ((Nat.le_div_iff_mul_le (Nat.two_pow_pos shift)).2 ?_)
    rw [← pow_add, show fmt.fractionBits + shift = u.sig.log2 by omega]
    exact Nat.log2_self_le hsig

/-- A significand whose leading bit is in the normal range is not rounded below it. -/
theorem hiddenBit_le_roundPack {u : Unpacked} (hsig : u.sig ≠ 0) (hlt : u.sig < 2 ^ 128)
    (hlead : fmt.minLead ≤ u.leadExp) (sticky : Bool) :
    fmt.hiddenBit ≤ (roundPack .gradual u sticky : BinaryFloat fmt).word := by
  have hq : u.leadExp = fmt.lastExp u.leadExp + fmt.fractionBits := by
    unfold FloatFormat.lastExp FloatFormat.minExp
    omega
  rw [roundPack_of_ne_zero hsig]
  exact le_min (le_add_left (hiddenBit_le_significandAt hsig hlt hq sticky))
    (hiddenBit_le_infinityWord fmt)

/-- What lies below the least normal number is a zero, and the rest is rounded to normal numbers. -/
theorem isSubnormal_roundPack {u : Unpacked} (hlt : u.sig < 2 ^ 128) (sticky : Bool) :
    (roundPack .flushToZero u sticky : BinaryFloat fmt).isSubnormal = false := by
  by_cases hsig : u.sig = 0
  · rw [roundPack_of_sig_eq_zero _ hsig]
    exact isSubnormal_zero _
  by_cases hlead : u.leadExp < fmt.minLead
  · have hzero : (roundPack .flushToZero u sticky : BinaryFloat fmt) = zero u.sign := by
      unfold roundPack
      rw [if_neg hsig, if_pos ⟨rfl, hlead⟩]
    rw [hzero]
    exact isSubnormal_zero _
  · have hgradual : (roundPack .flushToZero u sticky : BinaryFloat fmt) =
        roundPack .gradual u sticky := by
      unfold roundPack
      rw [if_neg (fun h : _ ∧ _ => hlead h.2), if_neg (fun h : _ ∧ _ => hlead h.2)]
    rw [hgradual, isSubnormal_eq_false_iff]
    exact Or.inr (hiddenBit_le_roundPack hsig hlt (not_lt.1 hlead) sticky)

theorem isSubnormal_ofWord {sign : Bool} {word : ℕ} (hlow : fmt.hiddenBit ≤ word)
    (hhigh : word ≤ fmt.infinityWord) : (ofWord sign word : BinaryFloat fmt).isSubnormal = false := by
  rw [isSubnormal_eq_false_iff, word_ofWord hhigh]
  exact Or.inr hlow

theorem isSubnormal_quieted (h : fmt.infinityWord ≤ x.word) : x.quieted.isSubnormal = false :=
  isSubnormal_of_not_finite (isFinite_of_isNaN (isNaN_quieted h))

theorem isSubnormal_nan : (nan : BinaryFloat fmt).isSubnormal = false :=
  isSubnormal_of_not_finite (isFinite_of_isNaN isNaN_nan)

/-! ## Canonical results -/

/-- What does not read as zero is not subnormal. -/
theorem isSubnormal_of_unpack (h : (x.unpack .flushToZero).sig ≠ 0) : x.isSubnormal = false := by
  by_contra hs
  rw [unpack_flushToZero, flushed_of_subnormal (by simpa using hs), ne_eq, unpack_sig_eq_zero_iff] at h
  exact h rfl

theorem splitAtPoint_le (sig shift : ℕ) : (splitAtPoint sig shift).1 ≤ sig := by
  unfold splitAtPoint
  split
  · exact Nat.zero_le _
  · exact Nat.shiftRight_le _ _

/-- Rounding up at the point does not leave the word. -/
theorem splitAtPoint_add_lt {sig shift : ℕ} (h : sig < 2 ^ 53) (up : Bool) :
    (splitAtPoint sig shift).1 + up.toNat < 2 ^ 128 := by
  have := splitAtPoint_le sig shift
  have := Bool.toNat_le up
  omega

/-- Rounding to an integral value makes no subnormal number. -/
theorem isSubnormal_rounded (rule : RoundingRule) (x : BinaryFloat fmt) :
    (x.rounded .flushToZero rule).isSubnormal = false := by
  unfold rounded
  dsimp only
  split_ifs with hn hf h0 hexp
  · exact isSubnormal_quieted ((isNaN_iff_word x).1 hn).le
  · exact isSubnormal_of_not_finite (by simpa using hf)
  · exact isSubnormal_zero _
  · exact isSubnormal_of_unpack h0
  · have hsig : (x.unpack .flushToZero).sig < 2 ^ 53 := by
      rw [unpack_flushToZero]
      exact unpack_sig_lt_two_pow _
    exact isSubnormal_roundPack (splitAtPoint_add_lt hsig _) _

/-- The neighbour in this mode skips the subnormal numbers. -/
theorem isSubnormal_nextUp (x : BinaryFloat fmt) : (x.nextUp .flushToZero).isSubnormal = false := by
  unfold nextUp
  dsimp only
  split_ifs with hn hz hmode hs hflush hi
  · exact isSubnormal_quieted ((isNaN_iff_word x).1 hn).le
  · exact isSubnormal_ofWord le_rfl (hiddenBit_le_infinityWord fmt)
  · exact absurd rfl hmode
  · exact isSubnormal_zero true
  · exact Bool.eq_false_iff.2 fun h => hflush ⟨rfl, h⟩
  · exact isSubnormal_of_not_finite (isFinite_of_isInfinite hi)
  · have hword := (isNaN_eq_false_iff x).1 (by simpa using hn)
    rw [isInfinite_iff_word] at hi
    have hnormal : x.word = 0 ∨ fmt.hiddenBit ≤ x.word := by
      rw [← isSubnormal_eq_false_iff]
      by_contra hsub
      simp [readsAsZero, hsub] at hz
    have h0 : x.word ≠ 0 := by
      intro h0
      simp [readsAsZero, isZero, h0] at hz
    exact isSubnormal_ofWord (by omega) (by omega)

theorem isSubnormal_nextDown (x : BinaryFloat fmt) : (x.nextDown .flushToZero).isSubnormal = false :=
  isSubnormal_nextUp (-x)

theorem isSubnormal_powerOfTwo {e : ℤ} (hlow : fmt.minLead ≤ e) (hhigh : e ≤ fmt.maxLead) :
    (powerOfTwo e : BinaryFloat fmt).isSubnormal = false :=
  isSubnormal_ofWord (fmt.hiddenBit_le_powerOfTwoWord hlow)
    (fmt.powerOfTwoWord_lt (fmt.minExp_le_minLead.trans hlow) hhigh).le

theorem isSubnormal_ulp (x : BinaryFloat fmt) : (x.ulp .flushToZero).isSubnormal = false := by
  unfold ulp
  dsimp only
  split_ifs with hf h0 hmode hflush
  · exact isSubnormal_nan
  · exact isSubnormal_zero _
  · exact absurd rfl hmode
  · exact isSubnormal_zero _
  · have hx : x.flushed.isFinite = true := by simpa using hf
    refine isSubnormal_powerOfTwo (not_lt.1 fun h => hflush ⟨rfl, h⟩) ?_
    rw [unpack_flushToZero]
    exact unpack_exp_le_maxLead hx

theorem isSubnormal_convert {source : FloatFormat} (target : FloatFormat) (x : BinaryFloat source) :
    (x.convert target .flushToZero).isSubnormal = false := by
  unfold convert
  split_ifs
  · refine isSubnormal_quieted ?_
    exact (Nat.le_add_right ..).trans (word_ofWord_add (scaledFraction_lt_hiddenBit target x)).ge
  · exact isSubnormal_ofWord (hiddenBit_le_infinityWord target) le_rfl
  · refine isSubnormal_roundPack ?_ _
    rw [unpack_flushToZero]
    exact unpack_sig_lt_two_pow_128 _

/-! ## Flushed operands -/

/-- An operand that reads as zero is rounded to a zero of its sign. -/
theorem rounded_of_unpack (rule : RoundingRule) (hf : x.isFinite = true)
    (h : (x.unpack .flushToZero).sig = 0) :
    x.rounded .flushToZero rule = zero (x.unpack .flushToZero).sign := by
  simp [rounded, isNaN_of_isFinite hf, hf, h]

/-- Rounding looks at the flushed operand only. -/
theorem rounded_flushed (rule : RoundingRule) (x : BinaryFloat fmt) :
    x.flushed.rounded .flushToZero rule = x.rounded .flushToZero rule := by
  cases hs : x.isSubnormal with
  | false => rw [flushed_of_not_subnormal hs]
  | true =>
    have hf := isFinite_of_isSubnormal hs
    have h0 : (x.unpack .flushToZero).sig = 0 := by
      by_contra h0
      rw [isSubnormal_of_unpack h0] at hs
      cases hs
    rw [rounded_of_unpack rule hf h0,
      rounded_of_unpack rule ((isFinite_flushed x).trans hf) (by rw [unpack_flushed, h0]),
      unpack_flushed]

theorem nextUp_flushed (x : BinaryFloat fmt) :
    x.flushed.nextUp .flushToZero = x.nextUp .flushToZero := by
  cases hs : x.isSubnormal with
  | false => rw [flushed_of_not_subnormal hs]
  | true =>
    have hn := isNaN_of_isFinite (isFinite_of_isSubnormal hs)
    have hz : x.readsAsZero .flushToZero = true := by simp [readsAsZero, hs]
    rw [nextUp_of_readsAsZero hn hz, nextUp_of_readsAsZero ((isNaN_flushed x).trans hn)
      ((readsAsZero_flushed x).trans hz)]

theorem nextDown_flushed (x : BinaryFloat fmt) :
    x.flushed.nextDown .flushToZero = x.nextDown .flushToZero := by
  unfold nextDown
  rw [neg_flushed, nextUp_flushed]

theorem ulp_flushed (x : BinaryFloat fmt) : x.flushed.ulp .flushToZero = x.ulp .flushToZero := by
  unfold ulp
  simp only [isFinite_flushed, unpack_flushed]

theorem convert_flushed {source : FloatFormat} (target : FloatFormat) (x : BinaryFloat source) :
    x.flushed.convert target .flushToZero = x.convert target .flushToZero := by
  cases hf : x.isFinite with
  | false => rw [flushed_of_not_finite hf]
  | true =>
    have hf' := (isFinite_flushed x).trans hf
    unfold convert
    simp [isNaN_of_isFinite hf, isNaN_of_isFinite hf', isInfinite_of_isFinite hf,
      isInfinite_of_isFinite hf', unpack_flushed]

end BinaryFloat

open BinaryFloat

theorem Operation.Outcome.isSubnormal {fmt : FloatFormat} {op : Operation fmt}
    {f : SubnormalMode → BinaryFloat fmt} (h : op.Outcome f) : (f .flushToZero).isSubnormal = false := by
  cases h with
  | propagated hnan =>
    obtain ⟨n, hn, rfl⟩ := Option.map_eq_some_iff.1 hnan
    exact isSubnormal_quieted ((isNaN_iff_word n).1 (List.find?_some hn)).le
  | invalid => exact isSubnormal_nan
  | infinite => exact isSubnormal_ofWord (hiddenBit_le_infinityWord fmt) le_rfl
  | zero => exact isSubnormal_zero _
  | packed _ _ _ hlt => exact isSubnormal_roundPack hlt _

/-! ## Calls -/

/-- A call of a function that takes a mode for subnormals and gives a float of this format. -/
inductive Call (fmt : FloatFormat) where
  | arithmetic (op : Operation fmt)
  | rounded (rule : RoundingRule) (x : BinaryFloat fmt)
  | nextUp (x : BinaryFloat fmt)
  | nextDown (x : BinaryFloat fmt)
  | ulp (x : BinaryFloat fmt)
  | convert {source : FloatFormat} (x : BinaryFloat source)

/-- A float of some format. -/
abbrev AnyFloat := Σ fmt, BinaryFloat fmt

namespace Call

variable {fmt : FloatFormat}

def eval (mode : SubnormalMode) : Call fmt → BinaryFloat fmt
  | arithmetic op => op.eval mode
  | rounded rule x => x.rounded mode rule
  | nextUp x => x.nextUp mode
  | nextDown x => x.nextDown mode
  | ulp x => x.ulp mode
  | convert x => x.convert fmt mode

def operands : Call fmt → List AnyFloat
  | arithmetic op => op.operands.map (⟨fmt, ·⟩)
  | rounded _ x | nextUp x | nextDown x | ulp x => [⟨fmt, x⟩]
  | convert x => [⟨_, x⟩]

/-- The same call with zeros in the place of its subnormal operands. -/
def flushed : Call fmt → Call fmt
  | arithmetic op => arithmetic (op.map BinaryFloat.flushed)
  | rounded rule x => rounded rule x.flushed
  | nextUp x => nextUp x.flushed
  | nextDown x => nextDown x.flushed
  | ulp x => ulp x.flushed
  | convert x => convert x.flushed

theorem operands_flushed (c : Call fmt) :
    c.flushed.operands = c.operands.map fun x => ⟨x.1, x.2.flushed⟩ := by
  cases c with
  | arithmetic op => simp [flushed, operands, Operation.operands_map]
  | _ => rfl

/-- A mode that flushes takes subnormal operands for zeros. -/
theorem eval_flushed (c : Call fmt) : c.flushed.eval .flushToZero = c.eval .flushToZero := by
  cases c with
  | arithmetic op => exact op.eval_map_flushed
  | rounded rule x => exact rounded_flushed rule x
  | nextUp x => exact nextUp_flushed x
  | nextDown x => exact nextDown_flushed x
  | ulp x => exact ulp_flushed x
  | convert x => exact convert_flushed fmt x

theorem isSubnormal_eval (c : Call fmt) : (c.eval .flushToZero).isSubnormal = false := by
  cases c with
  | arithmetic op =>
    obtain ⟨f, houtcome, hflush, -⟩ := op.exists_outcome_flushed
    exact (congrArg BinaryFloat.isSubnormal hflush).trans houtcome.isSubnormal
  | rounded rule x => exact isSubnormal_rounded rule x
  | nextUp x => exact isSubnormal_nextUp x
  | nextDown x => exact isSubnormal_nextDown x
  | ulp x => exact isSubnormal_ulp x
  | convert x => exact isSubnormal_convert fmt x

theorem isCanonical_eval (c : Call fmt) : (c.eval .flushToZero).isCanonical .flushToZero = true := by
  simp [isCanonical, isSubnormal_eval]

end Call

/-! ## Runs -/

/-- The results of calls made one after another in the mode that flushes, whose operands are inputs or
earlier results. -/
inductive Run (inputs : List AnyFloat) : List AnyFloat → Prop where
  | start : Run inputs []
  | step {results : List AnyFloat} {fmt : FloatFormat} (h : Run inputs results) (c : Call fmt)
    (hc : ∀ x ∈ c.operands, x ∈ inputs ∨ x ∈ results) :
    Run inputs (results ++ [⟨fmt, c.eval .flushToZero⟩])

namespace Run

variable {inputs results : List AnyFloat}

/-- One step keeps all results so far canonical, so every run does. -/
theorem isCanonical (h : Run inputs results) :
    ∀ x ∈ results, x.2.isCanonical .flushToZero = true := by
  induction h with
  | start => simp
  | step h c hc ih =>
    intro x hx
    rcases List.mem_append.1 hx with hx | hx
    · exact ih x hx
    · rw [List.mem_singleton] at hx
      subst hx
      exact c.isCanonical_eval

/-- A run does not tell its inputs from flushed ones. -/
theorem flushed (h : Run inputs results) :
    Run (inputs.map fun x => ⟨x.1, x.2.flushed⟩) results := by
  induction h with
  | start => exact .start
  | @step results fmt h c hc ih =>
    rw [← c.eval_flushed]
    refine ih.step c.flushed fun y hy => ?_
    rw [c.operands_flushed, List.mem_map] at hy
    obtain ⟨x, hx, rfl⟩ := hy
    rcases hc x hx with hinput | hresult
    · exact Or.inl (List.mem_map_of_mem hinput)
    · -- an earlier result is not subnormal, so it is its own flushed number
      have hcanonical := h.isCanonical x hresult
      have hs : x.2.isSubnormal = false := by simpa [BinaryFloat.isCanonical] using hcanonical
      rw [flushed_of_not_subnormal hs]
      exact Or.inr hresult

end Run

namespace BinaryFloat

/-- In the mode that flushes no call gives a subnormal number and none tells subnormal operands from zeros of
their signs.  So all results of a run are canonical, and are the same from zeros in the place of its
subnormal inputs. -/
theorem flushToZero_canonical :
    (∀ (fmt : FloatFormat) (c : Call fmt), (c.eval .flushToZero).isCanonical .flushToZero = true) ∧
    (∀ (fmt : FloatFormat) (c d : Call fmt), c.flushed = d.flushed →
      c.eval .flushToZero = d.eval .flushToZero) ∧
    ∀ inputs results : List AnyFloat, Run inputs results →
      (∀ x ∈ results, x.2.isCanonical .flushToZero = true) ∧
        Run (inputs.map fun x => ⟨x.1, x.2.flushed⟩) results := by
  refine ⟨fun fmt c => c.isCanonical_eval, fun fmt c d h => ?_,
    fun inputs results h => ⟨h.isCanonical, h.flushed⟩⟩
  rw [← c.eval_flushed, h, d.eval_flushed]

/-- The number after the least one is the least normal number, as after zero, and the product of both is
zero. -/
theorem flushToZero_canonical_least :
    ((Call.nextUp leastNonzero : Call .binary32).flushed = (Call.nextUp (zero false)).flushed ∧
      (Call.nextUp leastNonzero : Call .binary32).eval .flushToZero =
        (Call.nextUp (zero false)).eval .flushToZero) ∧
    Run [⟨.binary32, leastNonzero⟩] [⟨.binary32, leastNormal⟩, ⟨.binary32, zero false⟩] ∧
    ∀ x ∈ ([⟨.binary32, leastNormal⟩, ⟨.binary32, zero false⟩] : List AnyFloat),
      x.2.isCanonical .flushToZero = true := by
  obtain ⟨-, hsame, hrun⟩ := flushToZero_canonical
  have hflushed : (Call.nextUp leastNonzero : Call .binary32).flushed =
      (Call.nextUp (zero false)).flushed := by
    have h : (leastNonzero : BinaryFloat .binary32).flushed = (zero false).flushed := by
      decide +kernel
    simp only [Call.flushed, h]
  have hnext : (Call.nextUp leastNonzero : Call .binary32).eval .flushToZero = leastNormal := by
    decide +kernel
  have hmul : (Call.arithmetic (.mul leastNormal leastNonzero) : Call .binary32).eval .flushToZero =
      zero false := by decide +kernel
  have h1 : Run [⟨.binary32, leastNonzero⟩] [⟨.binary32, leastNormal⟩] :=
    hnext ▸ Run.start.step (Call.nextUp leastNonzero) (by simp [Call.operands])
  have h2 : Run [⟨.binary32, leastNonzero⟩] [⟨.binary32, leastNormal⟩, ⟨.binary32, zero false⟩] :=
    hmul ▸ h1.step (.arithmetic (.mul leastNormal leastNonzero))
      (by simp [Call.operands, Operation.operands])
  exact ⟨⟨hflushed, hsame _ _ _ hflushed⟩, h2, (hrun _ _ h2).1⟩

end BinaryFloat

end MachineNumbers
