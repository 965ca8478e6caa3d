import Mathlib.Algebra.Ring.Int.Defs
import Mathlib.Algebra.Ring.Nat
import TxnBench.Text.Decimal
import TxnBench.Text.Numeral

/-!
# Numbers that are written

A number is written in decimal digits, with a sign if it is negative, and reads back as it was: natural numbers
(`readNat_toDigits`), words (`readWord_toString`) and signed words (`readSigned_toString`). So do the other numerals for a
number, which may begin with zeros or a plus sign (`IsNumeral.readNat`). Nothing that is written for a number,
be it a time or a rate, has a character that could divide fields, end a line or quote anything (`isPlain_of_mem_text`).
-/

namespace TxnBench

namespace Numeral

/-- More digits make no smaller number. -/
theorem le_ofDigitChars (digits : List Char) (value : Nat) : value ≤ Nat.ofDigitChars 10 digits value := by
  induction digits generalizing value with
  | nil => simp
  | cons c rest ih =>
    rw [Nat.ofDigitChars_cons]
    have hrest := ih (10 * value + (c.toNat - '0'.toNat))
    omega

/-- Digits are read as the number they make up, if it is not past the limit. -/
theorem readDigits_of_isDigit {limit : Nat} (past : Error) {digits : List Char} {value : Nat}
    (hdigit : ∀ c ∈ digits, c.isDigit) (hlimit : Nat.ofDigitChars 10 digits value ≤ limit) :
    readDigits limit past value digits = .ok (Nat.ofDigitChars 10 digits value) := by
  induction digits generalizing value with
  | nil => simp [readDigits]
  | cons c rest ih =>
    rw [Nat.ofDigitChars_cons] at hlimit ⊢
    have hnext := Nat.le_trans (le_ofDigitChars rest (10 * value + (c.toNat - '0'.toNat))) hlimit
    rw [readDigits, if_pos (hdigit c List.mem_cons_self)]
    dsimp only
    rw [if_pos hnext]
    exact ih (fun d hd => hdigit d (List.mem_cons_of_mem c hd)) hlimit

/-- The digits of a number are read as it. -/
theorem readDigits_toDigits {limit n : Nat} (past : Error) (h : n ≤ limit) :
    readDigits limit past 0 (Nat.toDigits 10 n) = .ok n := by
  have hvalue : Nat.ofDigitChars 10 (Nat.toDigits 10 n) 0 = n := Nat.ofDigitChars_ten_toDigits
  have hdigit : ∀ c ∈ Nat.toDigits 10 n, c.isDigit := fun c => Nat.isDigit_of_mem_toDigits (by decide) (by decide)
  rw [readDigits_of_isDigit past hdigit (hvalue.symm ▸ h), hvalue]

/-- Whether characters are a number in decimal digits: zeros may lead, and one plus sign before them. -/
def IsNumeral (chars : List Char) (n : Nat) : Prop :=
  ∃ digits, digits ≠ [] ∧ digits.all Char.isDigit = true ∧ Nat.ofDigitChars 10 digits 0 = n ∧
    (chars = digits ∨ chars = '+' :: digits)

/-- The digits of a number are a numeral for it. -/
theorem isNumeral_toDigits (n : Nat) : IsNumeral (Nat.toDigits 10 n) n := by
  have hdigit : ∀ c ∈ Nat.toDigits 10 n, c.isDigit := fun c => Nat.isDigit_of_mem_toDigits (by decide) (by decide)
  exact ⟨_, Nat.toDigits_ne_nil, List.all_eq_true.mpr hdigit, Nat.ofDigitChars_ten_toDigits, .inl rfl⟩

/-- A numeral has a first character, which is a digit or a plus sign. -/
theorem IsNumeral.eq_cons {chars : List Char} {n : Nat} (h : IsNumeral chars n) :
    ∃ c rest, chars = c :: rest ∧ (c.isDigit = true ∨ c = '+') := by
  obtain ⟨digits, hne, hdigit, -, rfl | rfl⟩ := h
  · obtain ⟨c, rest, rfl⟩ := List.exists_cons_of_ne_nil hne
    exact ⟨c, rest, rfl, .inl (List.all_eq_true.mp hdigit c List.mem_cons_self)⟩
  · exact ⟨'+', digits, rfl, .inr rfl⟩

/-- A numeral is read as its number. -/
theorem IsNumeral.readNat {limit n : Nat} {chars : List Char} (h : IsNumeral chars n) (hn : n ≤ limit) :
    readNat limit chars = .ok n := by
  obtain ⟨digits, hne, hdigit, rfl, hchars⟩ := h
  have hread := readDigits_of_isDigit .tooLarge (List.all_eq_true.mp hdigit) hn
  obtain ⟨c, rest, rfl⟩ := List.exists_cons_of_ne_nil hne
  rcases hchars with rfl | rfl
  · unfold Numeral.readNat
    split
    · rename_i heq
      cases heq
    · rename_i heq
      cases heq
      cases hdigit
    · exact hread
  · exact hread

/-- A natural number reads back. -/
theorem readNat_toDigits {limit n : Nat} (h : n ≤ limit) : readNat limit (Nat.toDigits 10 n) = .ok n :=
  (isNumeral_toDigits n).readNat h

/-- A numeral is read as the word it is for. -/
theorem IsNumeral.readWord {n : UInt64} {text : String} (h : IsNumeral text.toList n.toNat) : readWord text = .ok n := by
  rw [Numeral.readWord, h.readNat (Nat.le_sub_one_of_lt n.toNat_lt_size)]
  exact congrArg Except.ok (UInt64.ofNat_toNat)

/-- A numeral that is not too large for a signed word is read as it. -/
theorem IsNumeral.readSigned {n : Nat} {text : String} (h : IsNumeral text.toList n) (hn : n < 2 ^ 63) :
    readSigned text = .ok n := by
  have hread : Numeral.readNat 0x7fffffffffffffff text.toList = .ok n := h.readNat (by omega)
  obtain ⟨c, rest, hchars, hc⟩ := h.eq_cons
  unfold Numeral.readSigned
  rw [hchars] at hread ⊢
  split
  · rename_i heq
    cases heq
    rcases hc with hc | hc <;> cases hc
  · rw [hread]
    rfl

/-- A word reads back. -/
theorem readWord_toString (n : UInt64) : readWord (toString n.toNat) = .ok n := by
  refine IsNumeral.readWord ?_
  rw [Nat.toString_eq_repr, Nat.toList_repr]
  exact isNumeral_toDigits _

/-- A signed word reads back, its sign included. -/
theorem readSigned_toString {i : Int} (hlow : -2 ^ 63 ≤ i) (hhigh : i < 2 ^ 63) : readSigned (toString i) = .ok i := by
  rw [Int.toString_eq_repr, Int.repr_eq_if]
  split
  · rename_i hi
    have hnumeral : IsNumeral (i.toNat.repr).toList i.toNat := Nat.toList_repr ▸ isNumeral_toDigits _
    rw [hnumeral.readSigned (by omega)]
    exact congrArg Except.ok (Int.toNat_of_nonneg hi)
  · rename_i hi
    have hread : readDigits 0x8000000000000000 .tooSmall 0 (Nat.toDigits 10 (-i).toNat) = .ok (-i).toNat :=
      readDigits_toDigits .tooSmall (by omega)
    obtain ⟨c, rest, hdigits⟩ := List.exists_cons_of_ne_nil (Nat.toDigits_ne_nil (n := (-i).toNat) (b := 10))
    have hchars : ("-" ++ (-i).toNat.repr).toList = '-' :: c :: rest := by
      rw [String.toList_append, Nat.toList_repr, hdigits]
      rfl
    rw [hdigits] at hread
    rw [readSigned, hchars]
    split
    · rename_i heq
      cases heq
      rw [hread]
      change Except.ok (-((-i).toNat : Int)) = _
      exact congrArg Except.ok (by omega)
    · rename_i hother
      exact absurd rfl (hother c rest)

end Numeral

/-! ## What stands in a number that is written -/

namespace Text

/-- Whether a character is a letter, a digit, or one of the signs that stand in numbers and names. No such character divides
fields, ends a line or quotes anything. -/
def isPlain (c : Char) : Bool :=
  c.isAlphanum || c = '-' || c = '.' || c = '_'

theorem isPlain_of_mem_toDigits {n : Nat} {c : Char} (h : c ∈ Nat.toDigits 10 n) : isPlain c = true := by
  have hdigit : c.isDigit = true := Nat.isDigit_of_mem_toDigits (by decide) (Nat.le_refl 10) h
  simp [isPlain, Char.isAlphanum, hdigit]

theorem isPlain_of_mem_toString_nat {n : Nat} {c : Char} (h : c ∈ (toString n).toList) : isPlain c = true := by
  rw [Nat.toString_eq_repr, Nat.toList_repr] at h
  exact isPlain_of_mem_toDigits h

theorem isPlain_of_mem_toString_int {i : Int} {c : Char} (h : c ∈ (toString i).toList) : isPlain c = true := by
  rw [Int.toString_eq_repr, Int.repr_eq_if] at h
  split at h
  · exact isPlain_of_mem_toString_nat h
  · rw [String.toList_append, List.mem_append] at h
    rcases h with h | h
    · cases List.mem_singleton.mp h
      rfl
    · exact isPlain_of_mem_toString_nat h

end Text

namespace Decimal

open Text

/-- A number written positionally has digits and perhaps a point. -/
theorem isPlain_of_mem_positional {d : Nat} {g : Int} {c : Char} (h : c ∈ positional d g) : isPlain c = true := by
  have hzeros : ∀ {n : Nat}, c ∈ List.replicate n '0' → isPlain c = true := by
    intro n hc
    rw [List.eq_of_mem_replicate hc]
    rfl
  unfold positional at h
  split at h
  · rcases List.mem_append.mp h with h | h
    · exact isPlain_of_mem_toDigits h
    · exact hzeros h
  · simp only [List.splitAt_eq] at h
    have hpadded : ∀ {n : Nat}, c ∈ List.replicate n '0' ++ Nat.toDigits 10 d → isPlain c = true := by
      intro n hc
      rcases List.mem_append.mp hc with hc | hc
      · exact hzeros hc
      · exact isPlain_of_mem_toDigits hc
    split at h
    · exact hpadded (List.mem_of_mem_take h)
    · rcases List.mem_append.mp h with h | h
      · exact hpadded (List.mem_of_mem_take h)
      · rcases List.mem_cons.mp h with rfl | h
        · rfl
        · rw [List.mem_reverse] at h
          exact hpadded (List.mem_of_mem_drop (List.mem_reverse.mp ((List.dropWhile_sublist _).subset h)))

/-- The text of a floating-point number is plain, infinities included. -/
theorem isPlain_of_mem_text {x : Float} {c : Char} (h : c ∈ (text x).toList) : isPlain c = true := by
  have hsign : ∀ {negative : Prop} [Decidable negative], c ∈ (if negative then [] else ['-']) → isPlain c = true := by
    intro negative _ hc
    split at hc
    · cases hc
    · cases List.mem_singleton.mp hc
      rfl
  unfold text at h
  rw [String.toList_ofList] at h
  dsimp only at h
  split at h
  · rcases List.mem_append.mp h with h | h
    · exact hsign h
    · cases List.mem_singleton.mp h
      rfl
  · split at h
    · have hletters : ['N', 'a', 'N'].all isPlain = true := rfl
      exact List.all_eq_true.mp hletters c h
    · split at h
      · rcases List.mem_append.mp h with h | h
        · exact hsign h
        · have hletters : ['i', 'n', 'f'].all isPlain = true := rfl
          exact List.all_eq_true.mp hletters c h
      · rcases List.mem_append.mp h with h | h
        · exact hsign h
        · exact isPlain_of_mem_positional h

end Decimal

end TxnBench
