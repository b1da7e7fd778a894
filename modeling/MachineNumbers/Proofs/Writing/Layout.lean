import Mathlib
import MachineNumbers.Proofs.ByteReader.Literal
import MachineNumbers.Proofs.Kinds
import MachineNumbers.Proofs.Writing

/-!
# Every layout of a number keeps its digits

A layout pads the digits with zeros and moves the point, and reading takes off zeros and counts the places
after the point.  What reading does to zeros at both ends of some digits is said once (`Decimal.lex_padded`),
and so each layout reads as the digits it was made of and the exponent of the last one (`lex_positional`,
`lex_scientific`).  Which layout a float has depends on the place of the point and its magnitude, and its
text shows which (`numberText_layout`).
-/

namespace MachineNumbers

open DigitString (zeros chars)

namespace DigitString

open Decimal (Trimmed digitsOf)

variable {s : DigitString}

/-! ## Layouts -/

theorem lex_positional (h : s.Normal) (ht : Trimmed s.digits)
    (hsmall : s.positional.toList.length < 2 ^ 60) :
    Decimal.lex s.positional.toList = .ok (some ⟨s.digits, s.lastExp⟩) := by
  obtain ⟨xs, ys, hlist, hpointed⟩ := exists_isPointed h
  have hlt := hpointed.digits_lt h
  obtain ⟨before, after, hdigits, hexp⟩ := hpointed.digits
  obtain ⟨hmantissa, hread, hlength⟩ := pointed_spec (fun d hd => hlt d (List.mem_append_left _ hd))
    (fun d hd => hlt d (List.mem_append_right _ hd)) (by simp [hpointed.integral])
  rw [hlist] at hsmall ⊢
  have hpadded := hread.trans hdigits
  have hfraction := Decimal.fractionLengthOf_le (chars xs ++ '.' :: chars ys)
  have hafter := Decimal.after_le_length hpadded
  have hlex := Decimal.lex_padded ht hmantissa .absent hpadded (by omega) (by omega) (by norm_num)
  rw [List.append_nil] at hlex
  rw [hlex, hlength, ← hexp]
  congr 3
  omega

theorem lex_scientific (style : DecimalStyle) (h : s.Normal) (ht : Trimmed s.digits)
    (hsmall : (s.scientific style).toList.length < 2 ^ 60) (hpoint : |s.point - 1| < 2 ^ 60) :
    Decimal.lex (s.scientific style).toList = .ok (some ⟨s.digits, s.lastExp⟩) := by
  obtain ⟨d, ds, hds, -⟩ := h.head
  have hlt := h.digits_lt
  rw [hds] at hlt
  obtain ⟨hmantissa, hread, hlength⟩ := leading_spec hlt
  have hdigits : digitsOf (leadingChars d ds) = zeros 0 ++ s.digits ++ zeros 0 := by
    rw [hread, hds]
    simp [zeros]
  rw [toList_scientific style hds] at hsmall ⊢
  rw [List.length_append] at hsmall
  have hfraction := Decimal.fractionLengthOf_le (leadingChars d ds)
  rw [Decimal.lex_padded ht hmantissa (isExponent_chars style.exponentDigits (s.point - 1)) hdigits
    (by omega) (by norm_num) (hpoint.trans (by norm_num)), hlength]
  congr 3
  rw [lastExp, hds, List.length_cons]
  push_cast
  omega

/-! ## Which layout a text has -/

/-- Digits, a point and digits. -/
def IsPlain (text : List Char) : Prop :=
  ∃ xs ys, xs ≠ [] ∧ ys ≠ [] ∧ (∀ c ∈ xs ++ ys, c.isDigit = true) ∧ text = xs ++ '.' :: ys

/-- The first digit, a point and the other digits if there are any, and an exponent with its sign and at
least two digits. -/
def IsScientific (digits : List ℕ) (text : List Char) : Prop :=
  ∃ d ds sign es, digits = d :: ds ∧ (sign = '-' ∨ sign = '+') ∧ 2 ≤ es.length ∧
    (∀ c ∈ es, c.isDigit = true) ∧
    text = leadingChars d ds ++ 'e' :: sign :: es

theorem IsPlain.not_mem {text : List Char} (h : IsPlain text) : 'e' ∉ text := by
  obtain ⟨xs, ys, -, -, hdigits, rfl⟩ := h
  intro hmem
  rcases List.mem_append.1 hmem with hmem | hmem
  · exact absurd (hdigits _ (List.mem_append_left _ hmem)) (by decide)
  · rcases List.mem_cons.1 hmem with heq | hmem
    · exact absurd heq (by decide)
    · exact absurd (hdigits _ (List.mem_append_right _ hmem)) (by decide)

theorem IsScientific.not_isPlain {digits : List ℕ} {text : List Char} (h : IsScientific digits text) :
    ¬IsPlain text := by
  intro hplain
  obtain ⟨d, ds, sign, es, -, -, -, -, rfl⟩ := h
  exact hplain.not_mem (by simp)

theorem isPlain_positional (h : s.Normal) : IsPlain s.positional.toList := by
  obtain ⟨xs, ys, hlist, hpointed⟩ := exists_isPointed h
  refine ⟨chars xs, chars ys, ?_, ?_, ?_, hlist⟩
  · simpa [chars] using hpointed.integral
  · simpa [chars] using hpointed.fraction
  · intro c hc
    rw [chars, chars, ← List.map_append] at hc
    exact isDigit_chars (hpointed.digits_lt h) c hc

theorem isScientific_scientific (h : s.Normal) :
    IsScientific s.digits (s.scientific .standard).toList := by
  obtain ⟨d, ds, hds, -⟩ := h.head
  have hlt := Positional.digits_lt (by decide : 0 < 10) (s.point - 1).natAbs
  rw [toList_scientific .standard hds]
  unfold exponentChars
  generalize Positional.digits 10 (s.point - 1).natAbs = es at hlt ⊢
  refine ⟨d, ds, if s.point - 1 < 0 then '-' else '+', chars (zeros (2 - es.length) ++ es), hds, ?_, ?_,
    isDigit_chars (append_lt zeros_lt hlt), rfl⟩
  · split
    · exact Or.inl rfl
    · exact Or.inr rfl
  · rw [length_chars, List.length_append, zeros, List.length_replicate]
    omega

end DigitString

namespace BinaryFloat

variable {fmt : FloatFormat}

/-- The text of a finite nonzero float, after its sign, reads as its digits and the exponent of the last
one, in bytes as well as in characters.  It is plain, with a digit on both sides of the point, from `0.0001`
up to `2^precision` exclusive, and scientific elsewhere. -/
theorem numberText_layout (x : BinaryFloat fmt) (hx : x.isFinite = true) (h0 : x.isZero = false) :
    let s := (DigitTarget.ofFloat x).shortest
    ∃ text : String, x.numberText = signText x.sign ++ text ∧
      Decimal.lex text.toList = .ok (some ⟨s.digits, s.point - s.digits.length⟩) ∧
      ByteReader.lex (Utf8.bytes text.toList) =
        some (.ok (some ⟨s.digits, s.point - s.digits.length⟩)) ∧
      (DigitString.IsPlain text.toList ↔ -3 ≤ s.point ∧ |x.value| < 2 ^ fmt.precision) ∧
      (DigitString.IsPlain text.toList → 'e' ∉ text.toList) ∧
      (¬DigitString.IsPlain text.toList → DigitString.IsScientific s.digits text.toList) := by
  intro s
  have hshortest := DigitTarget.shortest_ofFloat h0
  have hnormal : s.Normal := hshortest.normal
  have ht : Decimal.Trimmed s.digits := ⟨hnormal.head, hshortest.last⟩
  obtain ⟨hlen, hpoint⟩ : s.digits.length ≤ 18 ∧ s.point.natAbs ≤ 17000 := shortest_size hx h0
  have hlead : (x.unpack .gradual).leadExp < fmt.precision ↔ |x.value| < 2 ^ fmt.precision := by
    rw [leadExp_unpack_lt_iff h0, abs_value, zpow_natCast]
  rw [numberText_eq, isInfinite_of_isFinite hx, h0, if_neg (by simp), if_neg (by simp), ← hlead]
  refine ⟨_, rfl, ?_⟩
  split
  · next hplain =>
    have hsize := s.length_positional_le
    have hlex := DigitString.lex_positional hnormal ht (by omega)
    have his := DigitString.isPlain_positional hnormal
    exact ⟨hlex, (ByteReader.lex_bytes _).trans (congrArg some hlex), iff_of_true his hplain,
      fun _ => his.not_mem, absurd his⟩
  · next hplain =>
    have hsize := s.length_scientific_le
    have hlex := DigitString.lex_scientific .standard hnormal ht (by omega) (by rw [abs_lt]; omega)
    have his := DigitString.isScientific_scientific hnormal
    exact ⟨hlex, (ByteReader.lex_bytes _).trans (congrArg some hlex),
      iff_of_false his.not_isPlain hplain, fun h => h.not_mem, fun _ => his⟩

/-- With its sign and at the last place of the point that is plain: `-0.00015`. -/
theorem numberText_layout_plain :
    let x : BinaryFloat .binary64 := ofBits 0xbf23a92a30553261
    x.isFinite = true ∧ x.isZero = false ∧ ∃ text : String, x.numberText = "-" ++ text ∧
      Decimal.lex text.toList = .ok (some ⟨[1, 5], -5⟩) ∧ DigitString.IsPlain text.toList := by
  intro x
  have hx : x.isFinite = true := by decide +kernel
  have h0 : x.isZero = false := by decide +kernel
  have hshortest : (DigitTarget.ofFloat x).shortest = ⟨[1, 5], -3⟩ := by decide +kernel
  have hvalue : |x.value| < 2 ^ FloatFormat.binary64.precision := by decide +kernel
  have hsign : signText x.sign = "-" := by decide +kernel
  obtain ⟨text, htext, hlex, -, hplain, -⟩ := numberText_layout x hx h0
  rw [hshortest] at hlex hplain
  rw [hsign] at htext
  exact ⟨hx, h0, text, htext, hlex, hplain.2 ⟨le_rfl, hvalue⟩⟩

end BinaryFloat

end MachineNumbers
