import Mathlib
import MachineNumbers.Proofs.NaN
import MachineNumbers.Proofs.Reading.Grammar

/-!
# The text of a NaN

For inspection a NaN is written as its kind, signaling or quiet, and its payload (`debug_of_isNaN`).  A
format has one positive NaN for each kind and payload, `nanOf`, from which both are read off again
(`isSignalingNaN_nanOf`, `payload_nanOf`), and that is what the text reads back as (`parse_nanText`).
So nothing but the sign is lost, and the bit below the quiet one where that belongs to no payload
(`parse_debug_nan`).
-/

namespace MachineNumbers

namespace FloatFormat

variable (fmt : FloatFormat)

/-- The fraction of a NaN without payload: the quiet bit, or for a signaling one the bit below. -/
def kindBit (signaling : Bool) : ℕ := if signaling then fmt.quietBit / 2 else fmt.quietBit

/-- A single fraction bit is the quiet one, and leaves room for no payload; of more, those below the
first two hold it. -/
theorem payload_room : (fmt.fractionBits = 1 ∧ fmt.quietBit = 1 ∧ fmt.maxPayload = 0) ∨
    ∃ k, fmt.fractionBits = k + 2 ∧ fmt.quietBit = 2 * 2 ^ k ∧ fmt.maxPayload = 2 ^ k - 1 := by
  rcases Nat.eq_or_lt_of_le fmt.one_le_fractionBits with hone | hmore
  · left
    simp [maxPayload, quietBit, ← hone]
  · right
    obtain ⟨k, hk⟩ := Nat.exists_eq_add_of_le' hmore
    have hquiet : fmt.quietBit = 2 * 2 ^ k := by
      rw [quietBit, hk, Nat.pow_eq, ← pow_succ']
      rfl
    refine ⟨k, hk, hquiet, ?_⟩
    rw [maxPayload, hquiet, Nat.mul_div_cancel_left _ (by decide)]

variable {fmt} {signaling : Bool} {payload : ℕ}

/-- Only formats of two fraction bits or more have signaling NaNs. -/
def HasKind (fmt : FloatFormat) (signaling : Bool) : Prop := signaling = true → 2 ≤ fmt.fractionBits

theorem kindBit_pos (hkind : fmt.HasKind signaling) : 0 < fmt.kindBit signaling := by
  unfold kindBit
  rcases fmt.payload_room with ⟨hone, hquiet, -⟩ | ⟨k, -, hquiet, -⟩
  · cases signaling
    · simp [hquiet]
    · exact absurd (hkind rfl) (by omega)
  · have := Nat.two_pow_pos k
    rw [hquiet]
    split <;> omega

/-- Kind and payload share no bit, and fill the fraction. -/
theorem kindBit_add_eq_or (hpayload : payload ≤ fmt.maxPayload) :
    fmt.kindBit signaling + payload = fmt.kindBit signaling ||| payload := by
  unfold kindBit
  rcases fmt.payload_room with ⟨-, hquiet, hmax⟩ | ⟨k, -, hquiet, hmax⟩
  · obtain rfl : payload = 0 := by omega
    rw [Nat.add_zero, Nat.or_zero]
  · have hpos := Nat.two_pow_pos k
    have hlt : payload < 2 ^ k := by omega
    rw [hquiet, Nat.mul_div_cancel_left _ (by decide)]
    cases signaling
    · simpa [Nat.mul_comm] using Nat.two_pow_add_eq_or_of_lt hlt 2
    · simpa using Nat.two_pow_add_eq_or_of_lt hlt 1

theorem kindBit_add_lt (hpayload : payload ≤ fmt.maxPayload) :
    fmt.kindBit signaling + payload < fmt.hiddenBit := by
  unfold kindBit
  rcases fmt.payload_room with ⟨hone, hquiet, hmax⟩ | ⟨k, hbits, hquiet, hmax⟩
  · rw [hiddenBit_eq, hone]
    split <;> omega
  · have hpos := Nat.two_pow_pos k
    have hhidden : fmt.hiddenBit = 4 * 2 ^ k := by
      rw [hiddenBit_eq, hbits, pow_add]
      ring
    split <;> omega

theorem kindBit_and_maxPayload : fmt.kindBit signaling &&& fmt.maxPayload = 0 := by
  cases signaling
  · exact fmt.quietBit_and_maxPayload
  · show fmt.quietBit / 2 &&& fmt.maxPayload = 0
    rcases fmt.payload_room with ⟨-, -, hmax⟩ | ⟨k, -, hquiet, hmax⟩
    · rw [hmax, Nat.and_zero]
    · rw [hquiet, hmax, Nat.mul_div_cancel_left _ (by decide), Nat.and_two_pow_sub_one_eq_mod, Nat.mod_self]

end FloatFormat

namespace BinaryFloat

open FloatFormat

variable {fmt : FloatFormat} {x : BinaryFloat fmt} {signaling : Bool} {payload : ℕ}

/-! ## NaNs by kind and payload -/

/-- The positive NaN of a kind with a payload. -/
def nanOf (signaling : Bool) (payload : ℕ) : BinaryFloat fmt :=
  ofWord false (fmt.infinityWord + (fmt.kindBit signaling + payload))

theorem word_nanOf (hpayload : payload ≤ fmt.maxPayload) :
    (nanOf signaling payload : BinaryFloat fmt).word =
      fmt.infinityWord + (fmt.kindBit signaling + payload) :=
  word_ofWord_add (kindBit_add_lt hpayload)

theorem fractionField_nanOf (hpayload : payload ≤ fmt.maxPayload) :
    (nanOf signaling payload : BinaryFloat fmt).fractionField = fmt.kindBit signaling ||| payload := by
  rw [← kindBit_add_eq_or hpayload]
  exact fractionField_of_word (kindBit_add_lt hpayload) (word_nanOf hpayload)

theorem isNaN_nanOf (hkind : fmt.HasKind signaling) (hpayload : payload ≤ fmt.maxPayload) :
    (nanOf signaling payload : BinaryFloat fmt).isNaN = true := by
  have hpos := kindBit_pos hkind
  rw [isNaN_iff_word, word_nanOf hpayload]
  omega

theorem payload_nanOf (hpayload : payload ≤ fmt.maxPayload) :
    (nanOf signaling payload : BinaryFloat fmt).payload = payload := by
  unfold BinaryFloat.payload
  rw [fractionField_nanOf hpayload, Nat.and_or_distrib_right, kindBit_and_maxPayload, Nat.zero_or]
  rcases fmt.payload_room with ⟨-, -, hmax⟩ | ⟨k, -, -, hmax⟩
  · rw [hmax, Nat.and_zero]
    omega
  · have hpos := Nat.two_pow_pos k
    rw [hmax, Nat.and_two_pow_sub_one_eq_mod, Nat.mod_eq_of_lt (by omega)]

theorem isSignalingNaN_nanOf (hkind : fmt.HasKind signaling) (hpayload : payload ≤ fmt.maxPayload) :
    (nanOf signaling payload : BinaryFloat fmt).isSignalingNaN = signaling := by
  have hpos : 0 < fmt.quietBit := Nat.two_pow_pos _
  unfold isSignalingNaN
  rw [isNaN_nanOf hkind hpayload, Bool.true_and, fractionField_nanOf hpayload]
  cases signaling with
  | false =>
    rw [kindBit, if_neg Bool.false_ne_true, Nat.and_or_distrib_right, Nat.and_self]
    exact beq_eq_false_iff_ne.2 fun h => hpos.ne' (Nat.or_eq_zero_iff.1 h).1
  | true =>
    -- kind and payload together stay below the quiet bit
    have hlt : fmt.kindBit true ||| payload < 2 ^ (fmt.fractionBits - 1) := by
      show _ < fmt.quietBit
      rw [← kindBit_add_eq_or hpayload, kindBit, if_pos rfl]
      rcases fmt.payload_room with ⟨hone, -, -⟩ | ⟨k, -, hquiet, hmax⟩
      · exact absurd (hkind rfl) (by omega)
      · have hpos := Nat.two_pow_pos k
        omega
    have hand := Nat.and_two_pow (fmt.kindBit true ||| payload) (fmt.fractionBits - 1)
    rw [Nat.testBit_lt_two_pow hlt, Bool.toNat_false, Nat.zero_mul] at hand
    exact beq_iff_eq.2 hand

theorem nan_eq_nanOf : (nan : BinaryFloat fmt) = nanOf false 0 := by
  unfold nan nanOf
  rw [fmt.infinityWord_or_quietBit]
  rfl

theorem signalingNaN_eq_nanOf (hkind : fmt.HasKind true) :
    (signalingNaN : BinaryFloat fmt) = nanOf true 0 := by
  have hlt : fmt.kindBit true + 0 < fmt.hiddenBit := kindBit_add_lt (Nat.zero_le _)
  unfold signalingNaN nanOf
  rw [if_pos (hkind rfl), ← fmt.infinityWord_or hlt]
  rfl

/-- A payload is put into the NaN without one of the same kind. -/
theorem ofWord_nanOf_or (hpayload : payload ≤ fmt.maxPayload) :
    (ofWord false ((nanOf signaling 0 : BinaryFloat fmt).word ||| payload) : BinaryFloat fmt) =
      nanOf signaling payload := by
  have hkind : fmt.kindBit signaling + 0 < fmt.hiddenBit := kindBit_add_lt (Nat.zero_le _)
  have hlt : fmt.kindBit signaling + payload < fmt.hiddenBit := kindBit_add_lt hpayload
  rw [word_nanOf (Nat.zero_le _), ← fmt.infinityWord_or hkind, Nat.or_assoc, Nat.add_zero,
    ← kindBit_add_eq_or hpayload, fmt.infinityWord_or hlt, nanOf]

/-- A signaling NaN has a bit in its fraction that is not the quiet one. -/
theorem hasKind_of_isNaN (h : x.isNaN = true) : fmt.HasKind x.isSignalingNaN := by
  intro hsignaling
  by_contra hfew
  have hone : fmt.fractionBits = 1 := by
    have := fmt.one_le_fractionBits
    omega
  have hpos : x.fractionField ≠ 0 := by
    have hword := word_of_isNaN h
    have := (isNaN_iff_word x).1 h
    omega
  have hlt : x.fractionField < 2 ^ fmt.fractionBits := Nat.mod_lt _ (Nat.two_pow_pos _)
  rw [hone] at hlt
  have hquiet : fmt.quietBit = 1 := by rw [quietBit, hone]
  have hfraction : x.fractionField = 1 := by omega
  simp [isSignalingNaN, h, hfraction, hquiet] at hsignaling

theorem payload_le (x : BinaryFloat fmt) : x.payload ≤ fmt.maxPayload := Nat.and_le_right

/-! ## Writing -/

def nanName (signaling : Bool) : String := if signaling then "snan" else "nan"

/-- The text of a kind and a payload, which is left out if it is zero. -/
def nanText (signaling : Bool) (payload : ℕ) : String :=
  if payload = 0 then nanName signaling
  else nanName signaling ++ "(0x" ++ Positional.numeral 16 false payload ++ ")"

theorem debug_of_isNaN (h : x.isNaN = true) : x.debug = nanText x.isSignalingNaN x.payload := by
  unfold debug nanText nanName
  rw [if_pos h]

/-! ## Reading -/

theorem isPayload_numeral (payload : ℕ) :
    IsPayload ("(0x".toList ++ ((Positional.numeral 16 false payload).toList ++ [')'])) payload := by
  have hdigits : List.Forall₂ (Numeral.IsDigit 16) (Positional.numeral 16 false payload).toList
      (Positional.digits 16 payload) := by
    rw [Positional.numeral, String.toList_ofList, List.forall₂_map_left_iff, List.forall₂_same]
    intro d hd
    exact Numeral.isDigit_digitChar false le_rfl (Positional.digits_lt (by decide) payload d hd)
  have hne : (Positional.numeral 16 false payload).toList ≠ [] := by
    obtain ⟨d, ds, hds, -⟩ := Positional.digits_eq_cons (by decide : 1 < 16) payload
    simp [Positional.numeral, hds]
  have hopening : "(0x".toList.map Char.toLower = "(0x".toList := by decide
  have h := IsPayload.digits hopening hne hdigits
  rwa [Positional.ofDigits_digits (by decide)] at h

theorem parseSpecial?_nanName (hkind : fmt.HasKind signaling) (rest : List Char) :
    (parseSpecial? ((nanName signaling).toList ++ rest) : Except _ (Option (BinaryFloat fmt))) =
      (parseNaN (nanOf signaling 0) rest).map some := by
  cases signaling with
  | false => rw [← nan_eq_nanOf]; exact parseSpecial?_nan (by decide) rest
  | true => rw [← signalingNaN_eq_nanOf hkind]; exact parseSpecial?_snan (by decide) rest

/-- The text of a kind and a payload is a special name, which reads as the NaN of these. -/
theorem parseSpecial?_nanText (hkind : fmt.HasKind signaling) (hpayload : payload ≤ fmt.maxPayload) :
    IsSpecial (nanText signaling payload).toList payload ∧
      (parseSpecial? (nanText signaling payload).toList : Except _ (Option (BinaryFloat fmt))) =
        .ok (some (nanOf signaling payload)) := by
  have hname : (nanName signaling).toList.map Char.toLower ∈ ["nan".toList, "snan".toList] := by
    cases signaling <;> decide
  unfold nanText
  split
  · next hzero =>
    subst hzero
    refine ⟨.name (List.mem_cons_of_mem _ (List.mem_cons_of_mem _ hname)), ?_⟩
    have h := @parseSpecial?_nanName fmt _ hkind []
    rwa [List.append_nil] at h
  · have hlist : (nanName signaling ++ "(0x" ++ Positional.numeral 16 false payload ++ ")").toList =
        (nanName signaling).toList ++
          ("(0x".toList ++ ((Positional.numeral 16 false payload).toList ++ [')'])) := by
      simp only [String.toList_append, List.append_assoc]
      rfl
    have hrest := isPayload_numeral payload
    rw [hlist]
    refine ⟨.payload hname hrest, ?_⟩
    rw [parseSpecial?_nanName hkind, parseNaN_of_isPayload _ hrest, if_pos hpayload,
      ofWord_nanOf_or hpayload]
    rfl

theorem parse_nanText (hkind : fmt.HasKind signaling) (hpayload : payload ≤ fmt.maxPayload) :
    parse (nanText signaling payload) = .ok (nanOf signaling payload : BinaryFloat fmt) := by
  obtain ⟨hspecial, hparse⟩ := parseSpecial?_nanText hkind hpayload
  rw [parse_signed .absent (.special hspecial) rfl, parseBody, hparse]
  rfl

/-! ## There and back -/

/-- A NaN with all that text keeps of another one: everything but the sign. -/
structure KeepsNaN (x y : BinaryFloat fmt) : Prop where
  isNaN : y.isNaN = true
  sign : y.sign = false
  isSignalingNaN : y.isSignalingNaN = x.isSignalingNaN
  payload : y.payload = x.payload
  debug : y.debug = x.debug

theorem nanOf_keepsNaN (h : x.isNaN = true) :
    KeepsNaN x (nanOf x.isSignalingNaN x.payload : BinaryFloat fmt) := by
  have hkind := hasKind_of_isNaN h
  have hnan := isNaN_nanOf hkind (payload_le x)
  have hsignaling := isSignalingNaN_nanOf hkind (payload_le x)
  have hpayload : (nanOf x.isSignalingNaN x.payload : BinaryFloat fmt).payload = x.payload :=
    payload_nanOf (payload_le x)
  refine ⟨hnan, rfl, hsignaling, hpayload, ?_⟩
  rw [debug_of_isNaN hnan, debug_of_isNaN h, hsignaling, hpayload]

/-- The text of a NaN for inspection reads back as a positive NaN of the same kind and payload, with the
same text; the text for display reads as some NaN. -/
theorem parse_debug_nan (x : BinaryFloat fmt) (h : x.isNaN = true) :
    (∃ y : BinaryFloat fmt, parse x.debug = .ok y ∧ KeepsNaN x y) ∧
      ∃ y : BinaryFloat fmt, parse x.display = .ok y ∧ y.isNaN = true := by
  have hdisplay : x.display = nanText false 0 := by simp [display, h, nanText, nanName]
  have hquiet : fmt.HasKind false := fun h => absurd h Bool.false_ne_true
  constructor
  · refine ⟨_, ?_, nanOf_keepsNaN h⟩
    rw [debug_of_isNaN h]
    exact parse_nanText (hasKind_of_isNaN h) (payload_le x)
  · rw [hdisplay]
    exact ⟨_, parse_nanText hquiet (Nat.zero_le _), isNaN_nanOf hquiet (Nat.zero_le _)⟩

/-- A negative signaling NaN, whose text has no sign. -/
theorem parse_debug_nan_negative :
    let x : BinaryFloat .binary32 := ofBits 0xff80002a
    x.isNaN = true ∧ x.sign = true ∧
      (∃ y : BinaryFloat .binary32, parse "snan(0x2a)" = .ok y ∧ KeepsNaN x y) ∧
      ∃ y : BinaryFloat .binary32, parse "nan" = .ok y ∧ y.isNaN = true := by
  intro x
  have hx : x.isNaN = true := by decide +kernel
  have hdebug : x.debug = "snan(0x2a)" := by decide +kernel
  have hdisplay : x.display = "nan" := by decide +kernel
  have h := parse_debug_nan x hx
  rw [hdebug, hdisplay] at h
  exact ⟨hx, by decide +kernel, h⟩

end BinaryFloat

end MachineNumbers
