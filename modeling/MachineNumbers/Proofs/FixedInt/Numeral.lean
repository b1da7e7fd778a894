import Mathlib
import MachineNumbers.FixedInt.Numeral
import MachineNumbers.Proofs.Decimal.Numeral
import MachineNumbers.Proofs.FixedInt.Residue
import MachineNumbers.Proofs.Positional

/-!
# Integer numerals are read by the grammar

`Numeral.IsRun` is a run of digits with `_` between two of them, and `Numeral.Denotes` a sign and a run
with the number that they write.  Reading takes exactly the runs (`readDigits_iff`), keeps their number
or loses it only past every type (`foldl_pushDigit`), and so answers by the grammar and by the range
alone (`numerals_read`).
-/

namespace MachineNumbers

namespace Numeral

/-! ## The grammar -/

def digitLetters : List Char := "0123456789abcdef".toList

/-- `c` is the digit `d` of the radix, in either case. -/
def IsDigit (radix : ℕ) (c : Char) (d : ℕ) : Prop :=
  digitLetters.idxOf? c.toLower = some d ∧ d < radix

instance (radix : ℕ) (c : Char) (d : ℕ) : Decidable (IsDigit radix c d) := by
  unfold IsDigit
  infer_instance

/-- Digits that write `ds`, with `_` only directly between two of them. -/
inductive IsRun (radix : ℕ) : List Char → List ℕ → Prop where
  | last {c : Char} {d : ℕ} (hc : IsDigit radix c d) : IsRun radix [c] [d]
  | next {c : Char} {d : ℕ} {cs : List Char} {ds : List ℕ} (hc : IsDigit radix c d)
      (h : IsRun radix cs ds) : IsRun radix (c :: cs) (d :: ds)
  | separated {c : Char} {d : ℕ} {cs : List Char} {ds : List ℕ} (hc : IsDigit radix c d)
      (h : IsRun radix cs ds) : IsRun radix (c :: '_' :: cs) (d :: ds)

/-- The text is a numeral of the radix for the number `v`. -/
inductive Denotes (radix : ℕ) : List Char → ℤ → Prop where
  | numeral {sign run : List Char} {negative : Bool} {ds : List ℕ}
      (hsign : Decimal.IsSign sign negative) (hrun : IsRun radix run ds) :
      Denotes radix (sign ++ run) (Decimal.signFactor negative * Positional.ofDigits radix ds)

/-- A mark that chooses a radix, in either case. -/
inductive IsRadixMark : List Char → ℕ → Prop where
  | binary {c : Char} (hc : c = 'b' ∨ c = 'B') : IsRadixMark ['0', c] 2
  | octal {c : Char} (hc : c = 'o' ∨ c = 'O') : IsRadixMark ['0', c] 8
  | hexadecimal {c : Char} (hc : c = 'x' ∨ c = 'X') : IsRadixMark ['0', c] 16

/-- The text is a sign, a mark for the radix, and the rest. -/
def Marked (text : List Char) (negative : Bool) (radix : ℕ) (rest : List Char) : Prop :=
  ∃ sign mark, Decimal.IsSign sign negative ∧ IsRadixMark mark radix ∧ text = sign ++ (mark ++ rest)

/-- A sign that is always written. -/
def signChar (negative : Bool) : Char := if negative then '-' else '+'

/-! ## Digits -/

theorem digitLetters_ascii : digitLetters.all (fun c => c.toNat < 128) = true := by decide +kernel

/-- Digits are looked up among the ASCII letters, checked one by one. -/
theorem hexValue?_ascii : ∀ n < 128, Positional.hexValue? (Char.ofNat n) =
    digitLetters.idxOf? (Char.ofNat n).toLower := by
  decide +kernel

/-- Beyond ASCII no character is a digit, so the lookup is the whole table. -/
theorem hexValue?_eq (c : Char) :
    Positional.hexValue? c = digitLetters.idxOf? c.toLower := by
  by_cases hc : c.toNat < 128
  · simpa only [Char.ofNat_toNat] using hexValue?_ascii c.toNat hc
  · -- neither a digit nor changed by the case map
    have hlower : c.toLower = c := by
      rw [Char.toLower, dif_neg]
      rintro ⟨-, h⟩
      have : c.toNat ≤ 90 := h
      omega
    have hnone : digitLetters.idxOf? c = none := by
      rw [List.idxOf?_eq_none_iff]
      intro hmem
      exact hc (of_decide_eq_true (List.all_eq_true.1 digitLetters_ascii c hmem))
    rw [hlower, hnone, Positional.hexValue?_of_wide (not_lt.1 hc)]

theorem hexValue?_lt {c : Char} {d : ℕ} (h : Positional.hexValue? c = some d) : d < 16 := by
  rw [hexValue?_eq] at h
  exact (List.idxOf?_eq_some_iff.1 h).1.trans_le (by decide +kernel)

/-- A digit of a radix is one whose value is below it. -/
theorem digitValue?_eq_some {radix d : ℕ} {c : Char} :
    Positional.digitValue? radix c = some d ↔ IsDigit radix c d := by
  unfold Positional.digitValue? IsDigit
  rw [hexValue?_eq, Option.filter_eq_some_iff, decide_eq_true_eq]

/-- The letters that digits are written with are read as these digits. -/
theorem isDigit_digitChar {radix d : ℕ} (upper : Bool) (hradix : radix ≤ 16) (hd : d < radix) :
    IsDigit radix (Positional.digitChar upper d) d := by
  have h : ∀ upper, ∀ d < 16, digitLetters.idxOf? (Positional.digitChar upper d).toLower = some d := by
    decide +kernel
  exact ⟨h upper d (hd.trans_le hradix), hd⟩

/-- The separator is no digit in any radix. -/
theorem not_isDigit_separator {radix d : ℕ} : ¬IsDigit radix '_' d := by
  rintro ⟨h, -⟩
  have : digitLetters.idxOf? '_'.toLower = none := by decide +kernel
  rw [this] at h
  cases h

/-! ## Runs -/

variable {radix : ℕ}

/-- What may follow a digit in a run. -/
def Follows (radix : ℕ) (cs : List Char) (ds : List ℕ) : Prop :=
  (cs = [] ∧ ds = []) ∨ IsRun radix cs ds ∨ ∃ rest, cs = '_' :: rest ∧ IsRun radix rest ds

theorem isRun_cons {c : Char} {cs : List Char} {ds : List ℕ} : IsRun radix (c :: cs) ds ↔
    ∃ d rest, IsDigit radix c d ∧ Follows radix cs rest ∧ ds = d :: rest := by
  constructor
  · intro h
    cases h with
    | last hc => exact ⟨_, _, hc, Or.inl ⟨rfl, rfl⟩, rfl⟩
    | next hc h => exact ⟨_, _, hc, Or.inr (Or.inl h), rfl⟩
    | separated hc h => exact ⟨_, _, hc, Or.inr (Or.inr ⟨_, rfl, h⟩), rfl⟩
  · rintro ⟨d, rest, hc, h, rfl⟩
    rcases h with ⟨rfl, rfl⟩ | h | ⟨cs, rfl, h⟩
    · exact .last hc
    · exact .next hc h
    · exact .separated hc h

/-- A run of digits never starts with a separator. -/
theorem IsRun.startsWithDigit {cs : List Char} {ds : List ℕ} (h : IsRun radix cs ds) :
    startsWithDigit radix cs = true := by
  cases cs with
  | nil => cases h
  | cons c cs =>
    obtain ⟨d, -, hc, -, -⟩ := isRun_cons.1 h
    rw [Numeral.startsWithDigit, digitValue?_eq_some.2 hc]
    rfl

/-- After one separator a digit has to come. -/
theorem follows_separator {cs : List Char} {ds : List ℕ} :
    Follows radix ('_' :: cs) ds ↔ IsRun radix cs ds := by
  constructor
  · rintro (⟨h, -⟩ | h | ⟨rest, h, hrun⟩)
    · cases h
    · obtain ⟨d, -, hc, -, -⟩ := isRun_cons.1 h
      exact absurd hc not_isDigit_separator
    · rwa [(List.cons.inj h).2]
  · intro h
    exact Or.inr (Or.inr ⟨cs, rfl, h⟩)

theorem follows_cons {c : Char} (hc : c ≠ '_') {cs : List Char} {ds : List ℕ} :
    Follows radix (c :: cs) ds ↔ IsRun radix (c :: cs) ds := by
  constructor
  · rintro (⟨h, -⟩ | h | ⟨rest, h, -⟩)
    · cases h
    · exact h
    · exact absurd (List.cons.inj h).1 hc
  · intro h
    exact Or.inr (Or.inl h)

/-- Reading succeeds on exactly what the grammar lets follow, and takes its digits from the left. -/
theorem readDigits_iff (cs : List Char) (magnitude result : Option ℕ) :
    (readDigits radix true magnitude cs = .ok result ↔
      ∃ ds, Follows radix cs ds ∧ ds.foldl (pushDigit radix) magnitude = result) ∧
    (cs ≠ [] → (readDigits radix false magnitude cs = .ok result ↔
      ∃ ds, IsRun radix cs ds ∧ ds.foldl (pushDigit radix) magnitude = result)) := by
  induction cs generalizing magnitude with
  | nil =>
    refine ⟨?_, fun h => absurd rfl h⟩
    rw [readDigits]
    constructor
    · intro h
      exact ⟨[], Or.inl ⟨rfl, rfl⟩, Except.ok.inj h⟩
    · rintro ⟨ds, ⟨-, rfl⟩ | h | ⟨rest, h, -⟩, hfold⟩
      · rw [← hfold]
        rfl
      · cases h
      · cases h
  | cons c cs ih =>
    by_cases hsep : c = '_'
    · subst hsep
      constructor
      · simp only [follows_separator]
        rw [readDigits, if_pos rfl]
        by_cases hstart : startsWithDigit radix cs = true
        · have hne : cs ≠ [] := by
            rintro rfl
            simp [startsWithDigit] at hstart
          rw [hstart, Bool.and_self, if_pos rfl]
          exact (ih magnitude).2 hne
        · rw [Bool.true_and, if_neg hstart]
          constructor
          · intro h
            cases h
          · rintro ⟨ds, h, -⟩
            exact absurd h.startsWithDigit hstart
      · intro _
        rw [readDigits, if_pos rfl, Bool.false_and, if_neg Bool.false_ne_true]
        constructor
        · intro h
          cases h
        · rintro ⟨ds, h, -⟩
          obtain ⟨d, -, hc, -, -⟩ := isRun_cons.1 h
          exact absurd hc not_isDigit_separator
    · -- a digit is the same step whatever came before it
      have hstep : ∀ afterDigit, readDigits radix afterDigit magnitude (c :: cs) = .ok result ↔
          ∃ ds, IsRun radix (c :: cs) ds ∧ ds.foldl (pushDigit radix) magnitude = result := by
        intro afterDigit
        rw [readDigits, if_neg hsep]
        cases hdigit : Positional.digitValue? radix c with
        | none =>
          constructor
          · intro h
            cases h
          · rintro ⟨ds, h, -⟩
            obtain ⟨d, -, hc, -, -⟩ := isRun_cons.1 h
            rw [digitValue?_eq_some.2 hc] at hdigit
            cases hdigit
        | some d =>
          have hd := digitValue?_eq_some.1 hdigit
          refine (ih (pushDigit radix magnitude d)).1.trans ?_
          constructor
          · rintro ⟨ds, h, hfold⟩
            exact ⟨d :: ds, isRun_cons.2 ⟨d, ds, hd, h, rfl⟩, hfold⟩
          · rintro ⟨ds, h, hfold⟩
            obtain ⟨d', rest, hd', hfollows, rfl⟩ := isRun_cons.1 h
            obtain rfl : d' = d :=
              Option.some.inj ((digitValue?_eq_some.2 hd').symm.trans hdigit)
            exact ⟨rest, hfollows, hfold⟩
      constructor
      · simp only [follows_cons hsep]
        exact hstep true
      · intro _
        exact hstep false

/-- The reader takes exactly the runs of digits, and folds their values. -/
theorem readMagnitude_iff {cs : List Char} {result : Option ℕ} :
    readMagnitude radix cs = .ok result ↔
      ∃ ds, IsRun radix cs ds ∧ ds.foldl (pushDigit radix) (some 0) = result := by
  cases cs with
  | nil =>
    constructor
    · intro h
      cases h
    · rintro ⟨ds, h, -⟩
      cases h
  | cons c cs => exact (readDigits_iff (c :: cs) (some 0) result).2 (by simp)

/-! ## Magnitudes -/

/-- A magnitude that no longer fits stays so. -/
theorem foldl_pushDigit_none (ds : List ℕ) : ds.foldl (pushDigit radix) none = none := by
  induction ds with
  | nil => rfl
  | cons d ds ih => exact ih

theorem word?_of_lt {n : ℕ} (h : n < 2 ^ 128) : word? n = some n := if_pos h

theorem word?_of_le {n : ℕ} (h : 2 ^ 128 ≤ n) : word? n = none := if_neg (not_lt.2 h)

theorem pushDigit_some (n d : ℕ) : pushDigit radix (some n) d = word? (n * radix + d) := by
  show ((word? (n * radix)).bind fun shifted => word? (shifted + d)) = word? (n * radix + d)
  rcases lt_or_ge (n * radix) (2 ^ 128) with h | h
  · rw [word?_of_lt h]
    rfl
  · rw [word?_of_le h, word?_of_le (by omega)]
    rfl

/-- Further digits never make a magnitude smaller, so an early overflow is one of the whole numeral. -/
theorem le_foldl (hradix : 0 < radix) (ds : List ℕ) (n : ℕ) :
    n ≤ ds.foldl (fun n d => n * radix + d) n := by
  induction ds generalizing n with
  | nil => exact le_rfl
  | cons d ds ih =>
    calc n ≤ n * radix := Nat.le_mul_of_pos_right n hradix
      _ ≤ n * radix + d := Nat.le_add_right _ _
      _ ≤ _ := ih _

/-- The magnitude that is gathered is the number of the digits, unless no word holds that. -/
theorem foldl_pushDigit (hradix : 0 < radix) (ds : List ℕ) (n : ℕ) :
    ds.foldl (pushDigit radix) (word? n) = word? (ds.foldl (fun n d => n * radix + d) n) := by
  induction ds generalizing n with
  | nil => rfl
  | cons d ds ih =>
    rcases lt_or_ge n (2 ^ 128) with h | h
    · rw [word?_of_lt h, List.foldl_cons, pushDigit_some, ih]
      rfl
    · have hlost := h.trans (le_foldl hradix (d :: ds) n)
      rw [word?_of_le h, foldl_pushDigit_none, word?_of_le hlost]

/-- What a run of digits reads to: its value, while that fits the widest word. -/
theorem readMagnitude_of_run (hradix : 0 < radix) {cs : List Char} {ds : List ℕ}
    (h : IsRun radix cs ds) :
    readMagnitude radix cs = .ok (word? (Positional.ofDigits radix ds)) :=
  readMagnitude_iff.2 ⟨ds, h, foldl_pushDigit hradix ds 0⟩

end Numeral

namespace FixedInt

variable {ty : IntType} {radix : ℕ}

/-! ## Signed digits -/

theorem ofIntChecked_of_not_fits {v : ℤ} (h : ¬ty.Fits v) :
    (ofIntChecked v : Except _ (FixedInt ty)) = .error .range := if_neg h

/-- A run of digits is read as its number with the sign, in range or not. -/
theorem ofSignedDigits_of_run (hradix : 0 < radix) (negative : Bool) {cs : List Char} {ds : List ℕ}
    (h : Numeral.IsRun radix cs ds) :
    (ofSignedDigits negative radix cs : Except _ (FixedInt ty)) =
      ofIntChecked (Decimal.signFactor negative * Positional.ofDigits radix ds) := by
  have hsigned : ∀ n : ℕ, Decimal.signFactor negative * n = if negative then -(n : ℤ) else n := by
    intro n
    unfold Decimal.signFactor
    cases negative <;> simp
  -- from a word's last bit on no type has such a value
  have hlong : ∀ n : ℕ, 2 ^ 127 ≤ n →
      (ofIntChecked (if negative then -(n : ℤ) else n) : Except _ (FixedInt ty)) = .error .range := by
    intro n hn
    apply ofIntChecked_of_not_fits
    intro hfits
    have := hfits.bounds
    split at this <;> omega
  unfold ofSignedDigits
  rw [Numeral.readMagnitude_of_run hradix h, hsigned]
  generalize Positional.ofDigits radix ds = n
  rcases lt_or_ge n (2 ^ 128) with hword | hword
  · rw [Numeral.word?_of_lt hword]
    rcases lt_or_ge n (2 ^ 127) with hsign | hsign
    · exact if_pos hsign
    · exact (if_neg (not_lt.2 hsign)).trans (hlong n hsign).symm
  · rw [Numeral.word?_of_le hword]
    exact (hlong n (by omega)).symm

theorem ofSignedDigits_malformed_iff (hradix : 0 < radix) (negative : Bool) (cs : List Char) :
    (∃ fault, (ofSignedDigits negative radix cs : Except _ (FixedInt ty)) =
      .error (.malformedText fault)) ↔ ¬∃ ds, Numeral.IsRun radix cs ds := by
  constructor
  · rintro ⟨fault, hfault⟩ ⟨ds, h⟩
    rw [ofSignedDigits_of_run hradix negative h] at hfault
    unfold ofIntChecked at hfault
    split at hfault <;> cases hfault
  · intro hnone
    cases hread : Numeral.readMagnitude radix cs with
    | error fault => exact ⟨fault, by simp only [ofSignedDigits, hread]⟩
    | ok result =>
      obtain ⟨ds, h, -⟩ := Numeral.readMagnitude_iff.1 hread
      exact absurd ⟨ds, h⟩ hnone

/-! ## Signs and marks -/

theorem splitSign_eq (text : List Char) : Numeral.splitSign text = Decimal.scanSign text := by
  unfold Numeral.splitSign Decimal.scanSign
  rfl

theorem not_isSign_of_run {c : Char} {cs : List Char} {ds : List ℕ}
    (h : Numeral.IsRun radix (c :: cs) ds) : c ≠ '-' ∧ c ≠ '+' := by
  obtain ⟨d, -, ⟨hc, -⟩, -, -⟩ := Numeral.isRun_cons.1 h
  have hminus : Numeral.digitLetters.idxOf? '-'.toLower = none := by decide +kernel
  have hplus : Numeral.digitLetters.idxOf? '+'.toLower = none := by decide +kernel
  constructor
  · rintro rfl
    rw [hminus] at hc
    cases hc
  · rintro rfl
    rw [hplus] at hc
    cases hc

/-- A numeral is the sign that is split off and a run. -/
theorem denotes_iff {text rest : List Char} {negative : Bool}
    (hsplit : Numeral.splitSign text = (negative, rest)) {v : ℤ} : Numeral.Denotes radix text v ↔
      ∃ ds, Numeral.IsRun radix rest ds ∧
        v = Decimal.signFactor negative * Positional.ofDigits radix ds := by
  rw [splitSign_eq] at hsplit
  constructor
  · rintro ⟨hsign, hrun⟩
    next sign run negative' ds =>
    have hscan : Decimal.scanSign (sign ++ run) = (negative', run) := by
      apply Decimal.scanSign_complete hsign
      intro c hc
      cases run with
      | nil => cases hc
      | cons d cs =>
        obtain rfl := Option.some.inj hc
        exact not_isSign_of_run hrun
    rw [hscan] at hsplit
    obtain ⟨rfl, rfl⟩ := Prod.mk.inj hsplit
    exact ⟨ds, hrun, rfl⟩
  · rintro ⟨ds, hrun, rfl⟩
    obtain ⟨sign, hsign, rfl⟩ := Decimal.scanSign_sound hsplit
    exact .numeral hsign hrun

theorem splitRadix_mark {mark : List Char} (h : Numeral.IsRadixMark mark radix) (rest : List Char) :
    Numeral.splitRadix (mark ++ rest) = (radix, rest) := by
  cases h with
  | binary hc => rcases hc with rfl | rfl <;> rfl
  | octal hc => rcases hc with rfl | rfl <;> rfl
  | hexadecimal hc => rcases hc with rfl | rfl <;> rfl

/-- A text either bears a radix mark or is decimal as it stands. -/
theorem splitRadix_cases (text : List Char) :
    (∃ mark, Numeral.IsRadixMark mark (Numeral.splitRadix text).1 ∧
      text = mark ++ (Numeral.splitRadix text).2) ∨ Numeral.splitRadix text = (10, text) := by
  unfold Numeral.splitRadix
  split
  · exact Or.inl ⟨['0', 'b'], .binary (Or.inl rfl), rfl⟩
  · exact Or.inl ⟨['0', 'B'], .binary (Or.inr rfl), rfl⟩
  · exact Or.inl ⟨['0', 'o'], .octal (Or.inl rfl), rfl⟩
  · exact Or.inl ⟨['0', 'O'], .octal (Or.inr rfl), rfl⟩
  · exact Or.inl ⟨['0', 'x'], .hexadecimal (Or.inl rfl), rfl⟩
  · exact Or.inl ⟨['0', 'X'], .hexadecimal (Or.inr rfl), rfl⟩
  · exact Or.inr rfl

theorem radix_of_mark {mark : List Char} (h : Numeral.IsRadixMark mark radix) :
    radix = 2 ∨ radix = 8 ∨ radix = 10 ∨ radix = 16 := by
  cases h with
  | binary => exact Or.inl rfl
  | octal => exact Or.inr (Or.inl rfl)
  | hexadecimal => exact Or.inr (Or.inr (Or.inr rfl))

/-! ## Texts -/

theorem ofNumeral_eq (hradix : radix = 2 ∨ radix = 8 ∨ radix = 10 ∨ radix = 16) {text : String}
    {negative : Bool} {rest : List Char}
    (hsplit : Numeral.splitSign text.toList = (negative, rest)) :
    (ofNumeral radix text : Except _ (FixedInt ty)) = ofSignedDigits negative radix rest := by
  unfold ofNumeral
  rw [if_pos hradix, hsplit]

theorem parse_of_marked {text : String} {negative : Bool} {rest : List Char}
    (h : Numeral.Marked text.toList negative radix rest) :
    (parse text : Except _ (FixedInt ty)) =
      ofNumeral radix (String.ofList (Numeral.signChar negative :: rest)) := by
  obtain ⟨sign, mark, hsign, hmark, htext⟩ := h
  have hsplit : Numeral.splitSign text.toList = (negative, mark ++ rest) := by
    rw [htext, splitSign_eq]
    apply Decimal.scanSign_complete hsign
    intro c hc
    have hzero : c = '0' := by
      cases hmark <;> exact (Option.some.inj hc).symm
    rw [hzero]
    decide
  have hsigned : Numeral.splitSign (String.ofList (Numeral.signChar negative :: rest)).toList =
      (negative, rest) := by
    rw [String.toList_ofList]
    cases negative <;> rfl
  unfold parse
  rw [hsplit, ofNumeral_eq (radix_of_mark hmark) hsigned]
  simp only [splitRadix_mark hmark]

theorem parse_of_not_marked {text : String}
    (h : ∀ negative radix rest, ¬Numeral.Marked text.toList negative radix rest) :
    (parse text : Except _ (FixedInt ty)) = ofNumeral 10 text := by
  obtain ⟨⟨negative, rest⟩, hsplit⟩ : ∃ split, Numeral.splitSign text.toList = split := ⟨_, rfl⟩
  have hdecimal : Numeral.splitRadix rest = (10, rest) := by
    rcases splitRadix_cases rest with ⟨mark, hmark, hrest⟩ | hdecimal
    · obtain ⟨sign, hsign, htext⟩ := Decimal.scanSign_sound ((splitSign_eq _).symm.trans hsplit)
      exact absurd ⟨sign, mark, hsign, hmark, by rw [htext, ← hrest]⟩ (h _ _ _)
    · exact hdecimal
  unfold parse
  rw [hsplit, ofNumeral_eq (Or.inr (Or.inr (Or.inl rfl))) hsplit]
  simp only [hdecimal]

/-- Numerals are read by their grammar and exactly.  In each of the four radices the text is malformed iff
it is no numeral, and else the answer is its number or, for want of range, a range error, however many
digits it has; other radices are refused.  Without a radix a mark after the sign chooses one, and the
numeral is decimal without. -/
theorem numerals_read (ty : IntType) (text : String) :
    (∀ radix, radix = 2 ∨ radix = 8 ∨ radix = 10 ∨ radix = 16 →
      ((∃ fault, (ofNumeral radix text : Except _ (FixedInt ty)) = .error (.malformedText fault)) ↔
        ¬∃ v, Numeral.Denotes radix text.toList v) ∧
      ∀ v, Numeral.Denotes radix text.toList v →
        (ty.Fits v → ∃ a : FixedInt ty, ofNumeral radix text = .ok a ∧ a.value = v) ∧
        (¬ty.Fits v → (ofNumeral radix text : Except _ (FixedInt ty)) = .error .range)) ∧
    (∀ radix, ¬(radix = 2 ∨ radix = 8 ∨ radix = 10 ∨ radix = 16) →
      (ofNumeral radix text : Except _ (FixedInt ty)) = .error (.malformedText .unsupportedRadix)) ∧
    (∀ negative radix rest, Numeral.Marked text.toList negative radix rest →
      (parse text : Except _ (FixedInt ty)) =
        ofNumeral radix (String.ofList (Numeral.signChar negative :: rest))) ∧
    ((∀ negative radix rest, ¬Numeral.Marked text.toList negative radix rest) →
      (parse text : Except _ (FixedInt ty)) = ofNumeral 10 text) := by
  refine ⟨?_, ?_, fun negative radix rest => parse_of_marked, parse_of_not_marked⟩
  · intro radix hradix
    have hpos : 0 < radix := by omega
    obtain ⟨⟨negative, rest⟩, hsplit⟩ : ∃ split, Numeral.splitSign text.toList = split := ⟨_, rfl⟩
    rw [ofNumeral_eq hradix hsplit]
    constructor
    · rw [ofSignedDigits_malformed_iff hpos, not_iff_not]
      constructor
      · rintro ⟨ds, hrun⟩
        exact ⟨_, (denotes_iff hsplit).2 ⟨ds, hrun, rfl⟩⟩
      · rintro ⟨v, h⟩
        obtain ⟨ds, hrun, -⟩ := (denotes_iff hsplit).1 h
        exact ⟨ds, hrun⟩
    · intro v h
      obtain ⟨ds, hrun, rfl⟩ := (denotes_iff hsplit).1 h
      rw [ofSignedDigits_of_run hpos negative hrun]
      constructor
      · intro hfits
        exact ⟨wrap _, if_pos hfits, value_wrap _ hfits⟩
      · exact ofIntChecked_of_not_fits
  · intro radix hradix
    unfold ofNumeral
    rw [if_neg hradix]

/-- The least integer of 8 bits, in hexadecimal with a separator and with a mark, one that is out of
range, a radix that is refused, and a numeral without a mark. -/
theorem numerals_read_minimum :
    (Numeral.Denotes 16 "-8_0".toList (-128) ∧
      ∃ a : FixedInt { width := 8, signed := true }, ofNumeral 16 "-8_0" = .ok a ∧ a.value = -128) ∧
    (Numeral.Denotes 16 "-8_0".toList (-128) ∧
      (ofNumeral 16 "-8_0" : Except _ (FixedInt { width := 8, signed := false })) = .error .range) ∧
    (ofNumeral 3 "10" : Except _ (FixedInt { width := 8, signed := true })) =
      .error (.malformedText .unsupportedRadix) ∧
    (Numeral.Marked "-0X8_0".toList true 16 ['8', '_', '0'] ∧
      (parse "-0X8_0" : Except _ (FixedInt { width := 8, signed := true })) =
        ofNumeral 16 (String.ofList ['-', '8', '_', '0'])) ∧
    (parse "-128" : Except _ (FixedInt { width := 8, signed := true })) = ofNumeral 10 "-128" := by
  have hrun : Numeral.IsRun 16 ['8', '_', '0'] [8, 0] :=
    .separated (by decide +kernel) (.last (by decide +kernel))
  have hdenotes : Numeral.Denotes 16 "-8_0".toList (-128) := .numeral .minus hrun
  have hmarked : Numeral.Marked "-0X8_0".toList true 16 ['8', '_', '0'] :=
    ⟨['-'], ['0', 'X'], .minus, .hexadecimal (Or.inr rfl), rfl⟩
  have hplain : ∀ negative radix rest, ¬Numeral.Marked "-128".toList negative radix rest := by
    rintro negative radix rest ⟨sign, mark, hsign, hmark, htext⟩
    cases hsign <;> cases hmark <;> simp at htext
  obtain ⟨hread, -, -, -⟩ := numerals_read { width := 8, signed := true } "-8_0"
  obtain ⟨hrange, -, -, -⟩ := numerals_read { width := 8, signed := false } "-8_0"
  obtain ⟨-, hradix, -, -⟩ := numerals_read { width := 8, signed := true } "10"
  obtain ⟨-, -, hmark, -⟩ := numerals_read { width := 8, signed := true } "-0X8_0"
  obtain ⟨-, -, -, hdecimal⟩ := numerals_read { width := 8, signed := true } "-128"
  exact ⟨⟨hdenotes, ((hread 16 (by decide)).2 _ hdenotes).1 (by decide)⟩,
    ⟨hdenotes, ((hrange 16 (by decide)).2 _ hdenotes).2 (by decide)⟩,
    hradix 3 (by decide), ⟨hmarked, hmark _ _ _ hmarked⟩, hdecimal hplain⟩

end FixedInt

end MachineNumbers
