import Mathlib
import MachineNumbers.Text.Utf8

/-!
# Cutting texts between bytes

A text can be cut at a place exactly where two texts of characters meet (`isBoundary_append`,
`exists_of_isBoundary`).  A name of letters below 128 is found among bytes where it is found among
characters (`isName_bytes`), since no byte of a wider character is below 128.
-/

namespace MachineNumbers.Utf8

/-! ## Bytes of characters -/

theorem toNat_charOf (b : UInt8) : (charOf b).toNat = b.toNat := by
  have hvalid : b.toNat.isValidChar := Or.inl (b.toNat_lt.trans (by decide))
  rw [charOf, Char.toNat_ofNat, if_pos hvalid]

/-- A byte that follows the first of a wide character. -/
def Follows (b : UInt8) : Prop := 128 ≤ b.toNat ∧ b.toNat < 192

theorem follows_ofNat_add (n : Nat) : Follows (UInt8.ofNat (n % 64) + 128) := by
  have h : (UInt8.ofNat (n % 64) + 128).toNat = n % 64 + 128 := by
    rw [UInt8.toNat_add, UInt8.toNat_ofNat', show (128 : UInt8).toNat = 128 from rfl]
    omega
  rw [Follows, h]
  omega

/-- A narrow character is a byte below 128, and a wide one begins with a byte from 192 on. -/
theorem encodeChar_cases (c : Char) :
    (∃ b, b.toNat < 128 ∧ charOf b = c ∧ String.utf8EncodeChar c = [b]) ∨
      (128 ≤ c.toNat ∧ ∃ b bs, 192 ≤ b.toNat ∧ (∀ x ∈ bs, Follows x) ∧
        String.utf8EncodeChar c = b :: bs) := by
  have hval : c.val.toNat = c.toNat := rfl
  unfold String.utf8EncodeChar
  simp only [hval]
  split
  · refine Or.inl ⟨_, ?_, ?_, rfl⟩
    · rw [UInt8.toNat_ofNat']
      omega
    · rw [charOf, UInt8.toNat_ofNat', Nat.mod_eq_of_lt (by omega), Char.ofNat_toNat]
  · refine Or.inr ⟨by omega, ?_⟩
    -- two, three or four bytes, of which the first holds the highest bits
    split
    · refine ⟨_, _, ?_, by simp [follows_ofNat_add], rfl⟩
      rw [UInt8.toNat_ofNat']
      omega
    · split
      · refine ⟨_, _, ?_, by simp [follows_ofNat_add], rfl⟩
        rw [UInt8.toNat_ofNat']
        omega
      · refine ⟨_, _, ?_, by simp [follows_ofNat_add], rfl⟩
        rw [UInt8.toNat_ofNat']
        omega

theorem bytes_nil : bytes [] = [] := rfl

theorem bytes_cons (c : Char) (cs : List Char) :
    bytes (c :: cs) = String.utf8EncodeChar c ++ bytes cs := List.flatMap_cons

theorem bytes_append (xs ys : List Char) : bytes (xs ++ ys) = bytes xs ++ bytes ys :=
  List.flatMap_append

/-- The bytes are those of the string. -/
theorem bytes_toList (text : String) : bytes text.toList = text.toUTF8.data.toList := by
  conv_rhs => rw [← String.ofList_toList (s := text), String.toUTF8_eq_toByteArray]
  exact List.toList_data_toByteArray.symm

/-- How the bytes of a text begin. -/
theorem bytes_cons_cases (c : Char) (cs : List Char) :
    (∃ b, b.toNat < 128 ∧ charOf b = c ∧ bytes (c :: cs) = b :: bytes cs) ∨
      (128 ≤ c.toNat ∧ ∃ b bs, 192 ≤ b.toNat ∧ (∀ x ∈ bs, Follows x) ∧
        bytes (c :: cs) = b :: (bs ++ bytes cs)) := by
  rw [bytes_cons]
  rcases encodeChar_cases c with ⟨b, hb, hc, h⟩ | ⟨hc, b, bs, hb, hbs, h⟩
  · exact Or.inl ⟨b, hb, hc, by rw [h]; rfl⟩
  · exact Or.inr ⟨hc, b, bs, hb, hbs, by rw [h]; rfl⟩

theorem bytes_eq_nil_iff {text : List Char} : bytes text = [] ↔ text = [] := by
  cases text with
  | nil => simp [bytes_nil]
  | cons c cs =>
    rcases bytes_cons_cases c cs with ⟨b, -, -, h⟩ | ⟨-, b, bs, -, -, h⟩
    · simp [h]
    · simp [h]

/-! ## Boundaries -/

theorem beginsChar_iff (b : UInt8) : beginsChar b = true ↔ b.toNat < 128 ∨ 192 ≤ b.toNat := by
  unfold beginsChar
  rw [Bool.or_eq_true, decide_eq_true_eq, decide_eq_true_eq, UInt8.lt_iff_toNat_lt,
    UInt8.le_iff_toNat_le]
  rfl

theorem isBoundary_iff (text : List UInt8) (place : Nat) : isBoundary text place = true ↔
    place = 0 ∨ (∃ b, text[place]? = some b ∧ beginsChar b = true) ∨ place = text.length := by
  unfold isBoundary
  rw [Bool.or_eq_true, beq_iff_eq]
  cases h : text[place]? with
  | none => simp
  | some b =>
    have hlt := (List.getElem?_eq_some_iff.1 h).1
    simp [hlt.ne]

theorem isBoundary_append (xs ys : List Char) :
    isBoundary (bytes (xs ++ ys)) (bytes xs).length = true := by
  rw [bytes_append, isBoundary_iff, List.getElem?_append_right le_rfl, Nat.sub_self]
  cases ys with
  | nil =>
    right; right
    rw [bytes_nil, List.append_nil]
  | cons c cs =>
    right; left
    rcases bytes_cons_cases c cs with ⟨b, hb, -, h⟩ | ⟨-, b, bs, hb, -, h⟩
    · exact ⟨b, by rw [h]; rfl, (beginsChar_iff b).2 (Or.inl hb)⟩
    · exact ⟨b, by rw [h]; rfl, (beginsChar_iff b).2 (Or.inr hb)⟩

/-- Inside a character no byte begins one. -/
theorem not_beginsChar_encodeChar {c : Char} {place : Nat} {b : UInt8}
    (h : (String.utf8EncodeChar c)[place]? = some b) (hpos : 0 < place) : beginsChar b = false := by
  rw [← Bool.not_eq_true, beginsChar_iff]
  obtain ⟨n, rfl⟩ := Nat.exists_eq_add_of_lt hpos
  rw [Nat.zero_add] at h
  rcases encodeChar_cases c with ⟨a, -, -, hc⟩ | ⟨-, a, bs, -, hbs, hc⟩
  · rw [hc, List.getElem?_cons_succ, List.getElem?_nil] at h
    cases h
  · rw [hc, List.getElem?_cons_succ] at h
    have hb := hbs b (List.mem_of_getElem? h)
    unfold Follows at hb
    omega

theorem exists_of_isBoundary {text : List Char} {place : Nat}
    (h : isBoundary (bytes text) place = true) :
    ∃ xs ys, text = xs ++ ys ∧ (bytes xs).length = place := by
  induction text generalizing place with
  | nil =>
    refine ⟨[], [], rfl, ?_⟩
    rcases (isBoundary_iff _ _).1 h with h | ⟨b, hb, -⟩ | h
    · exact h.symm
    · cases hb
    · exact h.symm
  | cons c cs ih =>
    rcases Nat.eq_zero_or_pos place with rfl | hpos
    · exact ⟨[], c :: cs, rfl, rfl⟩
    · rw [isBoundary_iff, bytes_cons, List.length_append] at h
      rcases Nat.lt_or_ge place (String.utf8EncodeChar c).length with hlt | hge
      · rw [List.getElem?_append_left hlt] at h
        obtain ⟨b, hb, hbegins⟩ := (h.resolve_left hpos.ne').resolve_right (by omega)
        rw [not_beginsChar_encodeChar hb hpos] at hbegins
        cases hbegins
      · rw [List.getElem?_append_right hge] at h
        obtain ⟨xs, ys, rfl, hxs⟩ := @ih (place - (String.utf8EncodeChar c).length)
          ((isBoundary_iff _ _).2 (Or.inr ((h.resolve_left hpos.ne').imp_right (by omega))))
        refine ⟨c :: xs, ys, rfl, ?_⟩
        rw [bytes_cons, List.length_append, hxs]
        omega

theorem takeBytes?_append (xs ys : List Char) :
    takeBytes? (bytes (xs ++ ys)) (bytes xs).length = some (bytes xs) := by
  rw [takeBytes?, if_pos (isBoundary_append xs ys), bytes_append, List.take_left]

theorem dropBytes?_append (xs ys : List Char) :
    dropBytes? (bytes (xs ++ ys)) (bytes xs).length = some (bytes ys) := by
  rw [dropBytes?, if_pos (isBoundary_append xs ys), bytes_append, List.drop_left]

/-- What is taken off a text is a text. -/
theorem exists_of_takeBytes? {text : List Char} {place : Nat} {head : List UInt8}
    (h : takeBytes? (bytes text) place = some head) :
    ∃ xs ys, text = xs ++ ys ∧ head = bytes xs := by
  rw [takeBytes?] at h
  split at h
  · next hboundary =>
    obtain ⟨xs, ys, rfl, hlength⟩ := exists_of_isBoundary hboundary
    refine ⟨xs, ys, rfl, (Option.some.inj h).symm.trans ?_⟩
    rw [bytes_append, ← hlength, List.take_left]
  · cases h

/-! ## Names -/

def Narrow (name : List Char) : Prop := ∀ c ∈ name, c.toNat < 128

theorem toLower_of_wide {c : Char} (h : 128 ≤ c.toNat) : c.toLower = c := by
  rw [Char.toLower, dif_neg]
  intro hc
  exact absurd (h.trans hc.2) (by decide)

theorem isName_bytes {name : List Char} (hname : Narrow name) (text : List Char) :
    isName name (bytes text) = decide (text.map Char.toLower = name) := by
  unfold isName
  rw [Bool.beq_eq_decide_eq, decide_eq_decide]
  induction text generalizing name with
  | nil => rfl
  | cons c cs ih =>
    rcases bytes_cons_cases c cs with ⟨b, -, hb, h⟩ | ⟨hc, b, bs, hb, -, h⟩
    · rw [h, List.map_cons, hb, List.map_cons]
      cases name with
      | nil => simp
      | cons n name =>
        rw [List.cons.injEq, List.cons.injEq, ih fun d hd => hname d (List.mem_cons_of_mem n hd)]
    · -- a wide character is no letter of the name, and neither is its first byte
      rw [h, List.map_cons, List.map_cons, toLower_of_wide hc,
        toLower_of_wide (by rw [toNat_charOf]; omega)]
      constructor
      · rintro rfl
        have := hname _ List.mem_cons_self
        rw [toNat_charOf] at this
        omega
      · rintro rfl
        exact absurd (hname _ List.mem_cons_self) (Nat.not_lt.2 hc)

/-- A name in either case takes a byte for each letter. -/
theorem length_bytes_of_toLower {head name : List Char} (hname : Narrow name)
    (h : head.map Char.toLower = name) : (bytes head).length = name.length := by
  subst h
  induction head with
  | nil => rfl
  | cons c cs ih =>
    rw [List.map_cons] at hname
    have hcs := ih fun d hd => hname d (List.mem_cons_of_mem _ hd)
    rcases bytes_cons_cases c cs with ⟨b, -, -, h⟩ | ⟨hc, -⟩
    · rw [h, List.length_cons, hcs, List.map_cons, List.length_cons]
    · have := hname _ List.mem_cons_self
      rw [toLower_of_wide hc] at this
      omega

end MachineNumbers.Utf8
