import Mathlib
import MachineNumbers.FixedInt.Text
import MachineNumbers.Proofs.FixedInt.Conversion
import MachineNumbers.Proofs.FixedInt.Numeral

/-!
# Text of integers reads back

The decimal text of an integer shows its value and the others show its pattern, so the first reads back
as the integer and the others as the unsigned one of the same pattern.  `Numeral.IsSpaced` puts single
separators between adjacent digits; what is a run of digits stays one with the same digits
(`IsRun.insert`), so no result changes (`texts_read_back`).
-/

namespace MachineNumbers

namespace Numeral

/-! ## Separators -/

/-- The second text is the first with a `_` between some of its adjacent digits. -/
inductive IsSpaced (radix : ℕ) : List Char → List Char → Prop where
  | nil : IsSpaced radix [] []
  | keep (c : Char) {cs spaced : List Char} (h : IsSpaced radix cs spaced) :
      IsSpaced radix (c :: cs) (c :: spaced)
  | separate {c d : Char} {m n : ℕ} {cs spaced : List Char} (hc : IsDigit radix c m)
      (hd : IsDigit radix d n) (h : IsSpaced radix (d :: cs) spaced) :
      IsSpaced radix (c :: d :: cs) (c :: '_' :: spaced)

variable {radix : ℕ} {cs spaced : List Char}

/-- No separator at all. -/
theorem IsSpaced.refl (cs : List Char) : IsSpaced radix cs cs := by
  induction cs with
  | nil => exact .nil
  | cons c cs ih => exact .keep c ih

/-- Nothing is put behind a character that is no digit. -/
theorem IsSpaced.of_not_isDigit {c : Char} (hc : ∀ n, ¬IsDigit radix c n)
    (h : IsSpaced radix (c :: cs) spaced) :
    ∃ rest, spaced = c :: rest ∧ IsSpaced radix cs rest := by
  cases h with
  | keep _ h => exact ⟨_, rfl, h⟩
  | separate hd _ _ => exact absurd hd (hc _)

/-- Nothing is put before a character that is no digit, nor behind it. -/
theorem IsSpaced.of_not_isDigit_second {c d : Char} (hd : ∀ n, ¬IsDigit radix d n)
    (h : IsSpaced radix (c :: d :: cs) spaced) :
    ∃ rest, spaced = c :: d :: rest ∧ IsSpaced radix cs rest := by
  cases h with
  | keep _ h =>
    obtain ⟨rest, rfl, hrest⟩ := h.of_not_isDigit hd
    exact ⟨rest, rfl, hrest⟩
  | separate _ hd' _ => exact absurd hd' (hd _)

/-- Digits with more separators between them write the same digits, and so does what follows a digit. -/
theorem IsSpaced.keeps_digits (h : IsSpaced radix cs spaced) :
    (∀ ds, IsRun radix cs ds → IsRun radix spaced ds) ∧
    (∀ ds, Follows radix cs ds → Follows radix spaced ds) := by
  induction h with
  | nil =>
    constructor
    · intro ds hrun
      cases hrun
    · intro ds hfollows
      exact hfollows
  | @keep c cs spaced h ih =>
    have hrun : ∀ ds, IsRun radix (c :: cs) ds → IsRun radix (c :: spaced) ds := by
      intro ds hrun
      obtain ⟨d, rest, hc, hfollows, rfl⟩ := isRun_cons.1 hrun
      exact isRun_cons.2 ⟨d, rest, hc, ih.2 rest hfollows, rfl⟩
    refine ⟨hrun, ?_⟩
    intro ds hfollows
    by_cases hsep : c = '_'
    · rw [hsep] at hfollows ⊢
      exact follows_separator.2 (ih.1 ds (follows_separator.1 hfollows))
    · exact (follows_cons hsep).2 (hrun ds ((follows_cons hsep).1 hfollows))
  | @separate c d m n cs spaced hc hd h ih =>
    have hne : ∀ {e k}, IsDigit radix e k → e ≠ '_' := by
      rintro e k he rfl
      exact not_isDigit_separator he
    have hrun : ∀ ds, IsRun radix (c :: d :: cs) ds → IsRun radix (c :: '_' :: spaced) ds := by
      intro ds hrun
      obtain ⟨k, rest, hk, hfollows, rfl⟩ := isRun_cons.1 hrun
      exact .separated hk (ih.1 rest ((follows_cons (hne hd)).1 hfollows))
    refine ⟨hrun, ?_⟩
    intro ds hfollows
    exact (follows_cons (hne hc)).2 (hrun ds ((follows_cons (hne hc)).1 hfollows))

theorem IsRun.insert {ds : List ℕ} (h : IsRun radix cs ds) (hspaced : IsSpaced radix cs spaced) :
    IsRun radix spaced ds :=
  hspaced.keeps_digits.1 ds h

/-! ## Texts that are written -/

/-- The letters of a numeral are a run of its digits. -/
theorem isRun_numeral (upper : Bool) (hradix : 1 < radix) (hle : radix ≤ 16) (n : ℕ) :
    IsRun radix (Positional.numeral radix upper n).toList (Positional.digits radix n) := by
  have hletters : ∀ ds : List ℕ, ds ≠ [] → (∀ d ∈ ds, d < radix) →
      IsRun radix (ds.map (Positional.digitChar upper)) ds := by
    intro ds
    induction ds with
    | nil => intro hne _; exact absurd rfl hne
    | cons d ds ih =>
      intro _ hlt
      have hd := isDigit_digitChar upper hle (hlt d List.mem_cons_self)
      by_cases hds : ds = []
      · rw [hds]
        exact .last hd
      · exact .next hd (ih hds fun e he => hlt e (List.mem_cons_of_mem d he))
  obtain ⟨d, ds, hds, -⟩ := Positional.digits_eq_cons hradix n
  unfold Positional.numeral
  rw [String.toList_ofList]
  apply hletters
  · rw [hds]
    exact List.cons_ne_nil d ds
  · exact Positional.digits_lt (by omega) n

end Numeral

/-- A field of no width holds just the text. -/
theorem FieldLayout.toList_place {layout : FieldLayout} (h : layout.width = 0) (lead digits : String) :
    (layout.place lead digits).toList = lead.toList ++ digits.toList := by
  unfold FieldLayout.place FieldLayout.copies
  rw [h, Nat.zero_sub]
  split <;> cases layout.alignment <;> simp

namespace PatternRadix

theorem base_bounds (radix : PatternRadix) : 1 < radix.base ∧ radix.base ≤ 16 := by
  cases radix <;> decide

theorem base_supported (radix : PatternRadix) :
    radix.base = 2 ∨ radix.base = 8 ∨ radix.base = 10 ∨ radix.base = 16 := by
  cases radix <;> decide

/-- The mark of a radix chooses it, and its letter is no digit of the radix. -/
theorem mark_spec (radix : PatternRadix) : ∃ c, radix.mark.toList = ['0', c] ∧
    Numeral.IsRadixMark ['0', c] radix.base ∧ ∀ n, ¬Numeral.IsDigit radix.base c n := by
  have hletter : ∀ {r k : ℕ} {c : Char}, Numeral.digitLetters.idxOf? c.toLower = some k → r ≤ k →
      ∀ n, ¬Numeral.IsDigit r c n := by
    rintro r k c hk hle n ⟨hn, hlt⟩
    rw [hk] at hn
    have := Option.some.inj hn
    omega
  have hno : ∀ {r : ℕ} {c : Char}, Numeral.digitLetters.idxOf? c.toLower = none →
      ∀ n, ¬Numeral.IsDigit r c n := by
    rintro r c hnone n ⟨hn, -⟩
    rw [hnone] at hn
    cases hn
  cases radix with
  | binary => exact ⟨'b', rfl, .binary (Or.inl rfl), hletter (k := 11) (by decide +kernel) (by decide)⟩
  | octal => exact ⟨'o', rfl, .octal (Or.inl rfl), hno (by decide +kernel)⟩
  | lowerHex => exact ⟨'x', rfl, .hexadecimal (Or.inl rfl), hno (by decide +kernel)⟩
  | upperHex => exact ⟨'x', rfl, .hexadecimal (Or.inl rfl), hno (by decide +kernel)⟩

/-- Its numerals are runs of digits. -/
theorem isRun_numeral (radix : PatternRadix) (n : ℕ) : Numeral.IsRun radix.base
    (radix.numeral n).toList (Positional.digits radix.base n) :=
  Numeral.isRun_numeral _ radix.base_bounds.1 radix.base_bounds.2 n

end PatternRadix

namespace FixedInt

variable {ty : IntType}

/-! ## Reading runs -/

/-- The value of an integer, with a sign and digits, is read as the integer. -/
theorem ofSignedDigits_value {radix : ℕ} (hradix : 1 < radix) {negative : Bool} {run : List Char}
    {n : ℕ} (hrun : Numeral.IsRun radix run (Positional.digits radix n)) (a : FixedInt ty)
    (hvalue : Decimal.signFactor negative * n = a.value) :
    (ofSignedDigits negative radix run : Except _ (FixedInt ty)) = .ok a := by
  rw [ofSignedDigits_of_run (by omega) negative hrun, Positional.ofDigits_digits hradix, hvalue]
  unfold ofIntChecked
  rw [if_pos (fits_value a), wrap_value]

theorem splitSign_run {radix : ℕ} {run : List Char} {ds : List ℕ} (h : Numeral.IsRun radix run ds) :
    Numeral.splitSign run = (false, run) := by
  rw [splitSign_eq, ← List.nil_append run]
  apply Decimal.scanSign_complete .absent
  intro c hc
  cases run with
  | nil => cases hc
  | cons d cs =>
    obtain rfl := Option.some.inj hc
    exact not_isSign_of_run h

/-- What stands second in a run of decimal digits is no letter. -/
theorem second_of_run {c d : Char} {cs : List Char} {ds : List ℕ}
    (h : Numeral.IsRun 10 (c :: d :: cs) ds) : Positional.digitValue? 10 d ≠ none ∨ d = '_' := by
  by_cases hsep : d = '_'
  · exact Or.inr hsep
  · left
    obtain ⟨m, rest, -, hfollows, -⟩ := Numeral.isRun_cons.1 h
    obtain ⟨n, -, hn, -, -⟩ := Numeral.isRun_cons.1 ((Numeral.follows_cons hsep).1 hfollows)
    rw [Numeral.digitValue?_eq_some.2 hn]
    exact Option.some_ne_none n

/-- Decimal digits bear no mark. -/
theorem splitRadix_run {run : List Char} {ds : List ℕ} (h : Numeral.IsRun 10 run ds) :
    Numeral.splitRadix run = (10, run) := by
  unfold Numeral.splitRadix
  split
  · exact absurd (second_of_run h) (by decide)
  · exact absurd (second_of_run h) (by decide)
  · exact absurd (second_of_run h) (by decide)
  · exact absurd (second_of_run h) (by decide)
  · exact absurd (second_of_run h) (by decide)
  · exact absurd (second_of_run h) (by decide)
  · rfl

/-! ## Both kinds of text -/

theorem toList_toDecimal (a : FixedInt ty) : a.toDecimal.toList =
    (if a.value < 0 then ['-'] else []) ++ (Positional.numeral 10 false a.value.natAbs).toList := by
  unfold toDecimal formatDecimal
  rw [FieldLayout.toList_place rfl]
  congr 1
  split
  · rfl
  · rfl

theorem toList_formatPattern (a : FixedInt ty) (radix : PatternRadix) {layout : FieldLayout}
    (h : layout.width = 0) : (a.formatPattern radix layout).toList =
      (if layout.radixMark then radix.mark.toList else []) ++ (radix.numeral a.bits.toNat).toList := by
  unfold formatPattern BitPattern.format
  rw [FieldLayout.toList_place h]
  congr 1
  split
  · rfl
  · rfl

/-- A sign and the digits of the magnitude are read as the integer. -/
theorem parse_of_split (a : FixedInt ty) {text : String} {negative : Bool} {run : List Char}
    (hsplit : Numeral.splitSign text.toList = (negative, run))
    (hrun : Numeral.IsRun 10 run (Positional.digits 10 a.value.natAbs))
    (hsign : Decimal.signFactor negative * a.value.natAbs = a.value) : parse text = .ok a := by
  unfold parse
  rw [hsplit]
  dsimp only
  rw [splitRadix_run hrun]
  exact ofSignedDigits_value (by decide) hrun a hsign

theorem parse_spaced (a : FixedInt ty) {text : String}
    (h : Numeral.IsSpaced 10 a.toDecimal.toList text.toList) : parse text = .ok a := by
  have hrun := Numeral.isRun_numeral false (by decide : 1 < 10) (by decide) a.value.natAbs
  rw [toList_toDecimal] at h
  split at h
  · next hneg =>
    have hminus : ∀ n, ¬Numeral.IsDigit 10 '-' n := by
      intro n hn
      exact absurd rfl (not_isSign_of_run (.last hn)).1
    rw [List.singleton_append] at h
    obtain ⟨run, htext, hspaced⟩ := h.of_not_isDigit hminus
    have hsplit : Numeral.splitSign text.toList = (true, run) := by
      rw [htext]
      rfl
    apply a.parse_of_split hsplit (hrun.insert hspaced)
    show -1 * (a.value.natAbs : ℤ) = a.value
    omega
  · next hpos =>
    rw [List.nil_append] at h
    have hread := hrun.insert h
    apply a.parse_of_split (splitSign_run hread) hread
    show 1 * (a.value.natAbs : ℤ) = a.value
    omega

/-- A run of the digits of a pattern is read as the pattern. -/
theorem ofSignedDigits_pattern (a : FixedInt ty) (radix : PatternRadix) {run : List Char}
    (h : Numeral.IsSpaced radix.base (radix.numeral a.bits.toNat).toList run) :
    Numeral.IsRun radix.base run (Positional.digits radix.base a.bits.toNat) ∧
      (ofSignedDigits false radix.base run : Except _ (FixedInt ty.toUnsigned)) = .ok a.asUnsigned := by
  have hread := (radix.isRun_numeral a.bits.toNat).insert h
  refine ⟨hread, ofSignedDigits_value radix.base_bounds.1 hread _ ?_⟩
  exact one_mul _

theorem ofNumeral_spaced (a : FixedInt ty) (radix : PatternRadix) {text : String}
    (h : Numeral.IsSpaced radix.base (a.formatPattern radix .plain).toList text.toList) :
    ofNumeral radix.base text = .ok a.asUnsigned := by
  rw [toList_formatPattern a radix rfl, if_neg (by decide), List.nil_append] at h
  obtain ⟨hrun, hread⟩ := a.ofSignedDigits_pattern radix h
  rw [ofNumeral_eq radix.base_supported (splitSign_run hrun), hread]

theorem parse_spaced_marked (a : FixedInt ty) (radix : PatternRadix) {text : String}
    (h : Numeral.IsSpaced radix.base
      (a.formatPattern radix { FieldLayout.plain with radixMark := true }).toList text.toList) :
    parse text = .ok a.asUnsigned := by
  obtain ⟨c, hmark, hradix, hletter⟩ := radix.mark_spec
  rw [toList_formatPattern a radix rfl] at h
  dsimp only at h
  rw [if_pos rfl, hmark] at h
  obtain ⟨run, htext, hspaced⟩ := h.of_not_isDigit_second hletter
  obtain ⟨-, hread⟩ := a.ofSignedDigits_pattern radix hspaced
  unfold parse
  rw [htext, show Numeral.splitSign ('0' :: c :: run) = (false, ['0', c] ++ run) from rfl]
  dsimp only
  rw [splitRadix_mark hradix]
  exact hread

/-- The text of an integer reads back.  Its decimal text is the integer, and its pattern in each radix is,
to the unsigned type of its width, the integer with that pattern: without a mark when the radix is given,
and with the mark when the text is to choose it.  Single separators between digits change nothing. -/
theorem texts_read_back (a : FixedInt ty) :
    parse a.toDecimal = .ok a ∧
    (∀ text : String, Numeral.IsSpaced 10 a.toDecimal.toList text.toList → parse text = .ok a) ∧
    ∀ radix : PatternRadix,
      ofNumeral radix.base (a.formatPattern radix .plain) = .ok a.asUnsigned ∧
      parse (a.formatPattern radix { FieldLayout.plain with radixMark := true }) = .ok a.asUnsigned ∧
      (∀ text : String,
        Numeral.IsSpaced radix.base (a.formatPattern radix .plain).toList text.toList →
          ofNumeral radix.base text = .ok a.asUnsigned) ∧
      (∀ text : String,
        Numeral.IsSpaced radix.base
            (a.formatPattern radix { FieldLayout.plain with radixMark := true }).toList text.toList →
          parse text = .ok a.asUnsigned) := by
  refine ⟨a.parse_spaced (.refl _), fun text => a.parse_spaced, fun radix => ⟨?_, ?_, ?_, ?_⟩⟩
  · exact a.ofNumeral_spaced radix (.refl _)
  · exact a.parse_spaced_marked radix (.refl _)
  · intro text
    exact a.ofNumeral_spaced radix
  · intro text
    exact a.parse_spaced_marked radix

/-- The least integer of 8 bits: `-1_28`, `1000_0000` and `0x8_0`. -/
theorem texts_read_back_minimum :
    let a : FixedInt { width := 8, signed := true } := minimum
    (Numeral.IsSpaced 10 a.toDecimal.toList "-1_28".toList ∧ parse "-1_28" = .ok a) ∧
    (Numeral.IsSpaced 2 (a.formatPattern .binary .plain).toList "1000_0000".toList ∧
      ofNumeral 2 "1000_0000" = .ok a.asUnsigned) ∧
    (Numeral.IsSpaced 16
        (a.formatPattern .lowerHex { FieldLayout.plain with radixMark := true }).toList
        "0x8_0".toList ∧
      parse "0x8_0" = .ok a.asUnsigned) := by
  intro a
  obtain ⟨-, hdecimal, hpattern⟩ := texts_read_back a
  obtain ⟨-, -, hbinary, -⟩ := hpattern .binary
  obtain ⟨-, -, -, hmarked⟩ := hpattern .lowerHex
  have hd : Numeral.IsSpaced 10 a.toDecimal.toList "-1_28".toList := by
    rw [show a.toDecimal.toList = ['-', '1', '2', '8'] by decide +kernel]
    exact .keep _ (.separate (m := 1) (n := 2) (by decide +kernel) (by decide +kernel) (.refl _))
  have hb : Numeral.IsSpaced 2 (a.formatPattern .binary .plain).toList "1000_0000".toList := by
    rw [show (a.formatPattern .binary .plain).toList = "10000000".toList by decide +kernel]
    exact .keep _ (.keep _ (.keep _ (.separate (m := 0) (n := 0) (by decide +kernel)
      (by decide +kernel) (.refl _))))
  have hx : Numeral.IsSpaced 16
      (a.formatPattern .lowerHex { FieldLayout.plain with radixMark := true }).toList
      "0x8_0".toList := by
    rw [show (a.formatPattern .lowerHex { FieldLayout.plain with radixMark := true }).toList =
      "0x80".toList by decide +kernel]
    exact .keep _ (.keep _ (.separate (m := 8) (n := 0) (by decide +kernel) (by decide +kernel)
      (.refl _)))
  exact ⟨⟨hd, hdecimal _ hd⟩, ⟨hb, hbinary _ hb⟩, ⟨hx, hmarked _ hx⟩⟩

end FixedInt

end MachineNumbers
