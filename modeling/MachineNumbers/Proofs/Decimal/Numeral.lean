import Mathlib
import MachineNumbers.Decimal.Literal

/-!
# The grammar of decimal numerals

`Denotes text negative v` says that a text is a decimal numeral of the number `v`: a sign, a mantissa
and an exponent, each written as the grammar has it and not as it is read.  `Separated` is the mantissa
read from left to right, one character at a time; `isMantissa_iff` says that it is the same.
-/

namespace MachineNumbers.Decimal

/-! ## The grammar -/

/-- The digits among some characters. -/
def digitsOf (cs : List Char) : List Nat := (cs.filter Char.isDigit).map fun c => c.toNat - '0'.toNat

/-- How many digits follow the point. -/
def fractionLengthOf (cs : List Char) : Nat := (digitsOf (cs.dropWhile (· != '.'))).length

def EndsWithDigit (cs : List Char) : Prop := ∃ c, cs.getLast? = some c ∧ c.isDigit = true

def BeginsWithDigit (cs : List Char) : Prop := ∃ c, cs.head? = some c ∧ c.isDigit = true

/-- Digits, with at most one point and with `_` between two digits. -/
structure IsMantissa (cs : List Char) : Prop where
  letters : ∀ c ∈ cs, c.isDigit = true ∨ c = '.' ∨ c = '_'
  points : cs.count '.' ≤ 1
  separators : ∀ before after, cs = before ++ '_' :: after →
    EndsWithDigit before ∧ BeginsWithDigit after
  digits : ∃ c ∈ cs, c.isDigit = true

/-- An optional sign; `true` stands for minus. -/
inductive IsSign : List Char → Bool → Prop where
  | absent : IsSign [] false
  | plus : IsSign ['+'] false
  | minus : IsSign ['-'] true

def signFactor (negative : Bool) : ℤ := if negative then -1 else 1

/-- An optional exponent. -/
inductive IsExponent : List Char → ℤ → Prop where
  | absent : IsExponent [] 0
  | literal {mark : Char} {sign ds : List Char} {negative : Bool} (hmark : mark = 'e' ∨ mark = 'E')
      (hsign : IsSign sign negative) (hne : ds ≠ []) (hds : ∀ c ∈ ds, c.isDigit = true) :
      IsExponent (mark :: (sign ++ ds)) (signFactor negative * Positional.ofDigits 10 (digitsOf ds))

/-- The number of a mantissa and an exponent. -/
def numeralValue (mantissa : List Char) (e : ℤ) : ℚ :=
  Positional.ofDigits 10 (digitsOf mantissa) * 10 ^ (e - fractionLengthOf mantissa)

theorem numeralValue_nonneg (mantissa : List Char) (e : ℤ) : 0 ≤ numeralValue mantissa e := by
  unfold numeralValue
  positivity

/-- The text is a numeral of this number, with a minus sign or without. -/
inductive Denotes : List Char → Bool → ℚ → Prop where
  | numeral {sign mantissa exponent : List Char} {negative : Bool} {e : ℤ}
      (hsign : IsSign sign negative) (hmantissa : IsMantissa mantissa)
      (hexponent : IsExponent exponent e) :
      Denotes (sign ++ (mantissa ++ exponent)) negative
        (signFactor negative * numeralValue mantissa e)

/-! ## Signs -/

/-- The scanner takes off a sign and nothing more. -/
theorem scanSign_sound {text rest : List Char} {negative : Bool}
    (h : scanSign text = (negative, rest)) : ∃ sign, IsSign sign negative ∧ text = sign ++ rest := by
  rw [scanSign.eq_def] at h
  split at h
  · obtain ⟨rfl, rfl⟩ := Prod.mk.inj h
    exact ⟨['-'], .minus, rfl⟩
  · obtain ⟨rfl, rfl⟩ := Prod.mk.inj h
    exact ⟨['+'], .plus, rfl⟩
  · obtain ⟨rfl, rfl⟩ := Prod.mk.inj h
    exact ⟨[], .absent, rfl⟩

/-- A sign that is there is taken off, provided no second one follows. -/
theorem scanSign_complete {sign rest : List Char} {negative : Bool} (h : IsSign sign negative)
    (hrest : ∀ c, rest.head? = some c → c ≠ '-' ∧ c ≠ '+') :
    scanSign (sign ++ rest) = (negative, rest) := by
  cases h with
  | plus => rfl
  | minus => rfl
  | absent =>
    cases rest with
    | nil => rfl
    | cons c rest =>
      obtain ⟨hminus, hplus⟩ := hrest c rfl
      simp [scanSign, hminus, hplus]

/-- No letter of a mantissa is a sign. -/
theorem ne_sign_of_mantissa {c : Char} (h : c.isDigit = true ∨ c = '.' ∨ c = '_') :
    c ≠ '-' ∧ c ≠ '+' := by
  rcases h with h | rfl | rfl
  · constructor
    · rintro rfl
      simp at h
    · rintro rfl
      simp at h
  · decide
  · decide

/-- A mantissa starts with a digit, the point or a separator, hence with no sign and no name. -/
theorem IsMantissa.head {cs : List Char} (h : IsMantissa cs) :
    ∃ c rest, cs = c :: rest ∧ (c.isDigit = true ∨ c = '.' ∨ c = '_') := by
  obtain ⟨d, hd, -⟩ := h.digits
  obtain ⟨c, rest, rfl⟩ := List.exists_cons_of_ne_nil (List.ne_nil_of_mem hd)
  exact ⟨c, rest, rfl, h.letters c List.mem_cons_self⟩

/-! ## Digits of characters -/

theorem digit?_eq (c : Char) :
    digit? c = if c.isDigit then some (c.toNat - '0'.toNat) else none := by
  have hdigit : c.isDigit = true ↔ '0' ≤ c ∧ c ≤ '9' := by
    simp [Char.isDigit, Char.le_def]
  unfold digit? Positional.digitValue? Positional.hexValue?
  by_cases h : '0' ≤ c ∧ c ≤ '9'
  · rw [if_pos h, if_pos (hdigit.2 h), Option.filter_some, if_pos]
    have : c.toNat ≤ 57 := h.2
    exact decide_eq_true (by show c.toNat - 48 < 10; omega)
  · rw [if_neg h, if_neg (fun hc => h (hdigit.1 hc))]
    split
    · rw [Option.filter_some, if_neg]
      simp only [decide_eq_true_eq]
      omega
    · split
      · rw [Option.filter_some, if_neg]
        simp only [decide_eq_true_eq]
        omega
      · rfl

theorem isDigit_digit_lt {c : Char} (h : c.isDigit = true) : c.toNat - '0'.toNat < 10 := by
  have : c.toNat ≤ 57 := by
    simp only [Char.isDigit, Bool.and_eq_true, decide_eq_true_eq] at h
    exact h.2
  show c.toNat - 48 < 10
  omega

theorem startsWithDigit_iff (cs : List Char) : startsWithDigit cs = true ↔ BeginsWithDigit cs := by
  cases cs with
  | nil => simp [startsWithDigit, BeginsWithDigit]
  | cons c cs =>
    rw [startsWithDigit, digit?_eq, BeginsWithDigit]
    cases hc : c.isDigit <;> simp [hc]

theorem digitsOf_lt (cs : List Char) : ∀ d ∈ digitsOf cs, d < 10 := by
  intro d hd
  obtain ⟨c, hc, rfl⟩ := List.mem_map.1 hd
  exact isDigit_digit_lt (List.mem_filter.1 hc).2

theorem digitsOf_cons (c : Char) (cs : List Char) : digitsOf (c :: cs) =
    if c.isDigit then (c.toNat - '0'.toNat) :: digitsOf cs else digitsOf cs := by
  unfold digitsOf
  rw [List.filter_cons]
  split
  · rfl
  · rfl

/-- Digits are read from left to right, whatever stands between them. -/
theorem digitsOf_append (xs ys : List Char) : digitsOf (xs ++ ys) = digitsOf xs ++ digitsOf ys := by
  simp [digitsOf]

/-- A text has no more digits than characters. -/
theorem length_digitsOf_le (cs : List Char) : (digitsOf cs).length ≤ cs.length := by
  unfold digitsOf
  rw [List.length_map]
  exact List.length_filter_le _ _

/-- Places are counted from the point on. -/
theorem fractionLengthOf_cons (c : Char) (cs : List Char) : fractionLengthOf (c :: cs) =
    if c = '.' then (digitsOf cs).length else fractionLengthOf cs := by
  by_cases hc : c = '.'
  · simp [fractionLengthOf, hc, digitsOf_cons]
  · simp [fractionLengthOf, hc]

theorem fractionLengthOf_le (cs : List Char) : fractionLengthOf cs ≤ cs.length :=
  (length_digitsOf_le _).trans (List.dropWhile_suffix _).length_le

/-! ## Mantissas from left to right -/

/-- The rest of a mantissa, of which a digit has just been read or not and a point or not. -/
def Separated : Bool → Bool → List Char → Prop
  | _, _, [] => True
  | afterDigit, pointed, c :: cs =>
    (c.isDigit = true ∧ Separated true pointed cs) ∨
    (c = '_' ∧ afterDigit = true ∧ BeginsWithDigit cs ∧ Separated false pointed cs) ∨
    (c = '.' ∧ pointed = false ∧ Separated false true cs)

theorem endsWithDigit_cons (c : Char) (cs : List Char) :
    EndsWithDigit (c :: cs) ↔ EndsWithDigit cs ∨ cs = [] ∧ c.isDigit = true := by
  cases cs with
  | nil => simp [EndsWithDigit]
  | cons d ds => simp [EndsWithDigit, List.getLast?_cons]

/-- What is left of the conditions on a mantissa. -/
structure IsMantissaTail (afterDigit pointed : Bool) (cs : List Char) : Prop where
  letters : ∀ c ∈ cs, c.isDigit = true ∨ c = '.' ∨ c = '_'
  points : cs.count '.' ≤ (!pointed).toNat
  separators : ∀ before after, cs = before ++ '_' :: after →
    (EndsWithDigit before ∨ before = [] ∧ afterDigit = true) ∧ BeginsWithDigit after

/-- One more character in front, under the rules for separators and the point. -/
theorem IsMantissaTail.cons {afterDigit pointed afterDigit' pointed' : Bool} {c : Char}
    {cs : List Char} (h : IsMantissaTail afterDigit' pointed' cs)
    (hc : c.isDigit = true ∨ c = '.' ∨ c = '_') (hpoints : (c :: cs).count '.' ≤ (!pointed).toNat)
    (hafter : afterDigit' = true → c.isDigit = true)
    (hsep : c = '_' → afterDigit = true ∧ BeginsWithDigit cs) :
    IsMantissaTail afterDigit pointed (c :: cs) := by
  refine ⟨?_, hpoints, ?_⟩
  · intro d hd
    rcases List.mem_cons.1 hd with rfl | hd
    · exact hc
    · exact h.letters d hd
  · intro before after heq
    cases before with
    | nil =>
      obtain ⟨hc, rfl⟩ := List.cons.inj heq
      exact ⟨Or.inr ⟨rfl, (hsep hc).1⟩, (hsep hc).2⟩
    | cons b before =>
      obtain ⟨rfl, hcs⟩ := List.cons.inj heq
      obtain ⟨hlast, hfirst⟩ := h.separators before after hcs
      refine ⟨Or.inl ((endsWithDigit_cons _ _).2 ?_), hfirst⟩
      exact hlast.imp id fun hb => ⟨hb.1, hafter hb.2⟩

/-- The scanner's reading of separators is that of the grammar. -/
theorem Separated.isMantissaTail {afterDigit pointed : Bool} {cs : List Char}
    (h : Separated afterDigit pointed cs) : IsMantissaTail afterDigit pointed cs := by
  induction cs generalizing afterDigit pointed with
  | nil => exact ⟨by simp, by simp, by simp⟩
  | cons c cs ih =>
    rw [Separated] at h
    rcases h with ⟨hc, h⟩ | ⟨rfl, hafter, hbegin, h⟩ | ⟨rfl, hpointed, h⟩
    · have hpoint : c ≠ '.' := by rintro rfl; simp at hc
      have hsep : c ≠ '_' := by rintro rfl; simp at hc
      refine (ih h).cons (Or.inl hc) ?_ (fun _ => hc) fun h0 => absurd h0 hsep
      simpa [List.count_cons, hpoint] using (ih h).points
    · refine (ih h).cons (Or.inr (Or.inr rfl)) ?_ (by simp) fun _ => ⟨hafter, hbegin⟩
      simpa [List.count_cons] using (ih h).points
    · refine (ih h).cons (Or.inr (Or.inl rfl)) ?_ (by simp) (by simp)
      simpa [List.count_cons, hpointed] using (ih h).points

theorem IsMantissaTail.separated {afterDigit pointed : Bool} {cs : List Char}
    (h : IsMantissaTail afterDigit pointed cs) : Separated afterDigit pointed cs := by
  induction cs generalizing afterDigit pointed with
  | nil => trivial
  | cons c cs ih =>
    have hletters : ∀ d ∈ cs, d.isDigit = true ∨ d = '.' ∨ d = '_' := fun d hd =>
      h.letters d (by simp [hd])
    -- what the first character leaves of the condition on separators
    have hsep : ∀ before after, cs = before ++ '_' :: after →
        (EndsWithDigit before ∨ before = [] ∧ c.isDigit = true) ∧ BeginsWithDigit after := by
      intro before after heq
      obtain ⟨hlast, hfirst⟩ := h.separators (c :: before) after (by rw [heq]; rfl)
      refine ⟨?_, hfirst⟩
      rcases hlast with hlast | ⟨hnil, -⟩
      · exact (endsWithDigit_cons _ _).1 hlast
      · simp at hnil
    have hpoints := h.points
    rw [Separated]
    rcases h.letters c (by simp) with hc | rfl | rfl
    · have hne : c ≠ '.' := by rintro rfl; simp at hc
      refine Or.inl ⟨hc, ih ⟨hletters, by simpa [List.count_cons, hne] using hpoints, ?_⟩⟩
      intro before after heq
      exact by simpa [hc] using hsep before after heq
    · rw [List.count_cons_self] at hpoints
      have hpointed : pointed = false := by
        cases pointed
        · rfl
        · simp at hpoints
      refine Or.inr (Or.inr ⟨rfl, hpointed, ih ⟨hletters, ?_, ?_⟩⟩)
      · simpa [hpointed] using hpoints
      · intro before after heq
        exact by simpa using hsep before after heq
    · obtain ⟨hlast, hfirst⟩ := h.separators [] cs rfl
      refine Or.inr (Or.inl ⟨rfl, by simpa [EndsWithDigit] using hlast, hfirst,
        ih ⟨hletters, by simpa [List.count_cons] using hpoints, ?_⟩⟩)
      intro before after heq
      exact by simpa using hsep before after heq

/-- The grammar of mantissas in the form that the scanner decides. -/
theorem isMantissa_iff (cs : List Char) :
    IsMantissa cs ↔ Separated false false cs ∧ digitsOf cs ≠ [] := by
  have hdigits : digitsOf cs ≠ [] ↔ ∃ c ∈ cs, c.isDigit = true := by
    simp [digitsOf]
  rw [hdigits]
  constructor
  · intro h
    refine ⟨IsMantissaTail.separated ⟨h.letters, h.points, ?_⟩, h.digits⟩
    intro before after heq
    exact ⟨Or.inl (h.separators before after heq).1, (h.separators before after heq).2⟩
  · rintro ⟨h, hdigit⟩
    have := h.isMantissaTail
    exact ⟨this.letters, this.points, fun before after heq => by
      simpa using this.separators before after heq, hdigit⟩

end MachineNumbers.Decimal
