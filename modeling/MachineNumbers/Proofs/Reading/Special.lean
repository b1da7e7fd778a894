import Mathlib
import MachineNumbers.Proofs.FixedInt.Numeral
import MachineNumbers.Proofs.Reading

/-!
# Special names are read by the grammar

`IsSpecial text payload` says that a text names an infinity or a NaN, in any case, and gives the payload
in hexadecimal if it is not zero.  Such a text is read unless no NaN of the format has the payload
(`parseSpecial?_of_isSpecial`), and a text that is none is malformed or not a name at all
(`parseSpecial?_cases`).
-/

namespace MachineNumbers.BinaryFloat

variable {fmt : FloatFormat}

/-! ## The grammar -/

/-- A payload in hexadecimal digits, in parentheses and marked. -/
inductive IsPayload : List Char → ℕ → Prop where
  | digits {opening hex : List Char} {ds : List ℕ}
      (hopening : opening.map Char.toLower = "(0x".toList) (hne : hex ≠ [])
      (hhex : List.Forall₂ (Numeral.IsDigit 16) hex ds) :
      IsPayload (opening ++ (hex ++ [')'])) (Positional.ofDigits 16 ds)

/-- The text names an infinity or a NaN with this payload, in any case. -/
inductive IsSpecial : List Char → ℕ → Prop where
  | name {text : List Char}
      (h : text.map Char.toLower ∈
        ["inf".toList, "infinity".toList, "nan".toList, "snan".toList]) : IsSpecial text 0
  | payload {name rest : List Char} {payload : ℕ}
      (hname : name.map Char.toLower ∈ ["nan".toList, "snan".toList])
      (hrest : IsPayload rest payload) : IsSpecial (name ++ rest) payload

/-! ## Names -/

theorem dropName_append {name head : List Char} (h : head.map Char.toLower = name)
    (rest : List Char) : dropName name (head ++ rest) = some rest :=
  dropName_eq_some_iff.2 ⟨head, h, rfl⟩

/-- A name that leaves nothing is the whole text up to case. -/
theorem dropName_self {name text : List Char} :
    dropName name text = some [] ↔ text.map Char.toLower = name := by
  rw [dropName_eq_some_iff]
  constructor
  · rintro ⟨head, hhead, rfl⟩
    rwa [List.append_nil]
  · intro h
    exact ⟨text, h, (List.append_nil text).symm⟩

/-- A name whose first letter is another one does not fit. -/
theorem dropName_of_head_ne {n c : Char} {name text : List Char} (h : c.toLower ≠ n) :
    dropName (n :: name) (c :: text) = none := if_neg h

/-! ## Payloads -/

theorem mapM_hexValue?_iff {hex : List Char} {ds : List ℕ} :
    hex.mapM Positional.hexValue? = some ds ↔ List.Forall₂ (Numeral.IsDigit 16) hex ds := by
  have hdigit : ∀ c d, Positional.hexValue? c = some d ↔ Numeral.IsDigit 16 c d := by
    intro c d
    rw [← Numeral.digitValue?_eq_some, Positional.digitValue?, Option.filter_eq_some_iff]
    constructor
    · intro h
      exact ⟨h, decide_eq_true (Numeral.hexValue?_lt h)⟩
    · exact And.left
  induction hex generalizing ds with
  | nil =>
    rw [List.mapM_nil, List.forall₂_nil_left_iff]
    exact ⟨fun h => (Option.some.inj h).symm, fun h => by rw [h]; rfl⟩
  | cons c hex ih =>
    rw [List.mapM_cons, List.forall₂_cons_left_iff]
    constructor
    · intro h
      obtain ⟨d, hd, h⟩ := Option.bind_eq_some_iff.1 h
      obtain ⟨rest, hrest, h⟩ := Option.bind_eq_some_iff.1 h
      exact ⟨d, rest, (hdigit c d).1 hd, ih.1 hrest, (Option.some.inj h).symm⟩
    · rintro ⟨d, rest, hd, hrest, rfl⟩
      rw [(hdigit c d).2 hd, ih.2 hrest]
      rfl

theorem parsePayload_of_isPayload {text : List Char} {payload : ℕ} (h : IsPayload text payload) :
    parsePayload fmt text = if payload ≤ fmt.maxPayload then .ok payload else .error .range := by
  obtain ⟨hopening, hne, hhex⟩ := h
  unfold parsePayload
  have hdrop := dropName_append hopening
  simp only [show ['(', '0', 'x'] = "(0x".toList from rfl, hdrop]
  simp [hne, mapM_hexValue?_iff.2 hhex]

/-- A payload is well formed or malformed, with no third outcome. -/
theorem parsePayload_cases (text : List Char) :
    (∃ payload, IsPayload text payload) ∨
      ∃ fault, parsePayload fmt text = .error (.malformedText fault) := by
  unfold parsePayload
  cases hdrop : dropName ['(', '0', 'x'] text with
  | none => exact Or.inr ⟨_, rfl⟩
  | some rest =>
    obtain ⟨opening, hopening, rfl⟩ := dropName_eq_some_iff.1 hdrop
    dsimp only
    by_cases hlast : rest.getLast? = some ')'
    · rw [if_neg (not_not.2 hlast)]
      by_cases hempty : rest.dropLast.isEmpty = true
      · rw [if_pos hempty]
        exact Or.inr ⟨_, rfl⟩
      · rw [if_neg hempty]
        cases hhex : rest.dropLast.mapM Positional.hexValue? with
        | none => exact Or.inr ⟨_, rfl⟩
        | some ds =>
          have hne : rest.dropLast ≠ [] := fun h => hempty (by rw [h]; rfl)
          obtain ⟨init, rfl⟩ := List.getLast?_eq_some_iff.1 hlast
          rw [List.dropLast_concat] at hhex hne
          exact Or.inl ⟨_, .digits hopening hne (mapM_hexValue?_iff.1 hhex)⟩
    · rw [if_pos hlast]
      exact Or.inr ⟨_, rfl⟩

theorem parseNaN_of_isPayload (base : BinaryFloat fmt) {text : List Char} {payload : ℕ}
    (h : IsPayload text payload) : parseNaN base text =
      if payload ≤ fmt.maxPayload then .ok (ofWord false (base.word ||| payload))
      else .error .range := by
  have hne : text.isEmpty = false := by
    obtain ⟨-, -, -⟩ := h
    simp
  unfold parseNaN
  rw [hne, parsePayload_of_isPayload h, if_neg Bool.false_ne_true]
  split <;> rfl

/-- After the name of a NaN comes nothing, a payload, or what is malformed. -/
theorem parseNaN_cases (base : BinaryFloat fmt) (text : List Char) :
    text = [] ∨ (∃ payload, IsPayload text payload) ∨
      ∃ fault, parseNaN base text = .error (.malformedText fault) := by
  cases text with
  | nil => exact Or.inl rfl
  | cons c text =>
    refine Or.inr ((@parsePayload_cases fmt (c :: text)).imp_right ?_)
    rintro ⟨fault, hfault⟩
    refine ⟨fault, ?_⟩
    unfold parseNaN
    rw [hfault]
    rfl

/-! ## Special names -/

theorem not_infinity_of_head {c : Char} (hc : c.toLower ≠ 'i') (text : List Char) :
    ¬(dropName "inf".toList (c :: text) = some [] ∨
      dropName "infinity".toList (c :: text) = some []) := by
  have hinf : dropName "inf".toList (c :: text) = none := dropName_of_head_ne hc
  have hinfinity : dropName "infinity".toList (c :: text) = none := dropName_of_head_ne hc
  rw [hinf, hinfinity]
  simp

theorem parseSpecial?_snan {name : List Char} (hname : name.map Char.toLower = "snan".toList)
    (rest : List Char) : (parseSpecial? (name ++ rest) : Except _ (Option (BinaryFloat fmt))) =
      (parseNaN signalingNaN rest).map some := by
  cases name with
  | nil => cases hname
  | cons c name =>
    have hc : c.toLower = 's' := (List.cons.inj hname).1
    have hdrop := dropName_append hname rest
    rw [List.cons_append] at hdrop ⊢
    unfold parseSpecial?
    rw [if_neg (not_infinity_of_head (by rw [hc]; decide) _), hdrop]

theorem parseSpecial?_nan {name : List Char} (hname : name.map Char.toLower = "nan".toList)
    (rest : List Char) : (parseSpecial? (name ++ rest) : Except _ (Option (BinaryFloat fmt))) =
      (parseNaN nan rest).map some := by
  cases name with
  | nil => cases hname
  | cons c name =>
    have hc : c.toLower = 'n' := (List.cons.inj hname).1
    have hdrop := dropName_append hname rest
    have hsnan : dropName "snan".toList (c :: name ++ rest) = none :=
      dropName_of_head_ne (by rw [hc]; decide)
    rw [List.cons_append] at hdrop hsnan ⊢
    unfold parseSpecial?
    rw [if_neg (not_infinity_of_head (by rw [hc]; decide) _), hsnan, hdrop]

theorem parseSpecial?_infinity {text : List Char}
    (h : text.map Char.toLower = "inf".toList ∨ text.map Char.toLower = "infinity".toList) :
    (parseSpecial? text : Except _ (Option (BinaryFloat fmt))) = .ok (some (infinity false)) := by
  unfold parseSpecial?
  rw [if_pos (h.imp dropName_self.2 dropName_self.2)]

/-- A special name is read if a NaN of the format has its payload, and else is out of range. -/
theorem parseSpecial?_of_isSpecial {text : List Char} {payload : ℕ} (h : IsSpecial text payload) :
    (payload ≤ fmt.maxPayload → ∃ x : BinaryFloat fmt, parseSpecial? text = .ok (some x)) ∧
    (fmt.maxPayload < payload →
      (parseSpecial? text : Except _ (Option (BinaryFloat fmt))) = .error .range) := by
  cases h with
  | name h =>
    refine ⟨fun _ => ?_, fun hlt => absurd hlt (Nat.not_lt_zero _)⟩
    simp only [List.mem_cons, List.not_mem_nil, or_false] at h
    rcases h with h | h | h | h
    · exact ⟨_, parseSpecial?_infinity (Or.inl h)⟩
    · exact ⟨_, parseSpecial?_infinity (Or.inr h)⟩
    · refine ⟨nan, ?_⟩
      have := @parseSpecial?_nan fmt _ h []
      rwa [List.append_nil] at this
    · refine ⟨signalingNaN, ?_⟩
      have := @parseSpecial?_snan fmt _ h []
      rwa [List.append_nil] at this
  | @payload name rest _ hname hrest =>
    obtain ⟨base, hbase⟩ : ∃ base : BinaryFloat fmt,
        parseSpecial? (name ++ rest) = (parseNaN base rest).map some := by
      simp only [List.mem_cons, List.not_mem_nil, or_false] at hname
      rcases hname with hname | hname
      · exact ⟨nan, parseSpecial?_nan hname rest⟩
      · exact ⟨signalingNaN, parseSpecial?_snan hname rest⟩
    rw [hbase, parseNaN_of_isPayload base hrest]
    constructor
    · intro hle
      rw [if_pos hle]
      exact ⟨_, rfl⟩
    · intro hlt
      rw [if_neg (not_le.2 hlt)]
      rfl

/-- A text that is no special name is malformed, or is left to be a numeral. -/
theorem parseSpecial?_cases (text : List Char) :
    (∃ payload, IsSpecial text payload) ∨
      (∃ fault, (parseSpecial? text : Except _ (Option (BinaryFloat fmt))) =
        .error (.malformedText fault)) ∨
      (parseSpecial? text : Except _ (Option (BinaryFloat fmt))) = .ok none := by
  -- after the name of a NaN there is nothing, a payload, or a fault
  have hnan : ∀ (base : BinaryFloat fmt) {head rest : List Char},
      head.map Char.toLower ∈ ["nan".toList, "snan".toList] →
      parseSpecial? (head ++ rest) = (parseNaN base rest).map some →
      (∃ payload, IsSpecial (head ++ rest) payload) ∨
        ∃ fault, (parseSpecial? (head ++ rest) : Except _ (Option (BinaryFloat fmt))) =
          .error (.malformedText fault) := by
    intro base head rest hhead hparse
    rcases parseNaN_cases base rest with rfl | ⟨payload, hpayload⟩ | ⟨fault, hfault⟩
    · refine Or.inl ⟨0, .name ?_⟩
      rw [List.append_nil]
      exact List.mem_cons_of_mem _ (List.mem_cons_of_mem _ hhead)
    · exact Or.inl ⟨payload, .payload hhead hpayload⟩
    · refine Or.inr ⟨fault, ?_⟩
      rw [hparse, hfault]
      rfl
  by_cases hinf : dropName "inf".toList text = some [] ∨ dropName "infinity".toList text = some []
  · refine Or.inl ⟨0, .name ?_⟩
    rcases hinf with h | h
    · simp [dropName_self.1 h]
    · simp [dropName_self.1 h]
  · cases hsnan : dropName "snan".toList text with
    | some rest =>
      obtain ⟨head, hhead, rfl⟩ := dropName_eq_some_iff.1 hsnan
      exact (hnan signalingNaN (by simp [hhead]) (parseSpecial?_snan hhead rest)).imp_right Or.inl
    | none =>
      cases hname : dropName "nan".toList text with
      | some rest =>
        obtain ⟨head, hhead, rfl⟩ := dropName_eq_some_iff.1 hname
        exact (hnan nan (by simp [hhead]) (parseSpecial?_nan hhead rest)).imp_right Or.inl
      | none =>
        refine Or.inr (Or.inr ?_)
        unfold parseSpecial?
        rw [if_neg hinf, hsnan, hname]

end MachineNumbers.BinaryFloat
