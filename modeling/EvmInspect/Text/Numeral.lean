import EvmInspect.Bytes

namespace EvmInspect.Text

def decimal (n : Nat) : List Char :=
  Nat.toDigits 10 n

/-- The number that decimal digits denote, and none for a text that is empty or holds another
character. Leading zeros do not count. -/
def ofDigits? (text : List Char) : Option Nat :=
  if text ≠ [] ∧ text.all Char.isDigit then some (Nat.ofDigitChars 10 text 0) else none

/-- The number that a numeral denotes: digits, with at most one plus sign in front. -/
def readNumber? (text : List Char) : Option Nat :=
  let digits := match text with
    | '+' :: rest => rest
    | _ => text
  ofDigits? digits

def readSize? (text : List Char) : Option Nat :=
  (readNumber? text).bind Size.fit?

theorem toList_toString (n : Nat) : (toString n).toList = decimal n :=
  Nat.toList_repr

theorem decimal_ne_nil (n : Nat) : decimal n ≠ [] :=
  Nat.toDigits_ne_nil

theorem isDigit_of_mem_decimal {n : Nat} {c : Char} (h : c ∈ decimal n) : c.isDigit = true :=
  Nat.isDigit_of_mem_toDigits (by decide) (by decide) h

theorem ofDigits?_decimal (n : Nat) : ofDigits? (decimal n) = some n := by
  have hdigits : (decimal n).all Char.isDigit = true :=
    List.all_eq_true.mpr fun _ => isDigit_of_mem_decimal
  rw [ofDigits?, if_pos ⟨decimal_ne_nil n, hdigits⟩]
  exact congrArg some Nat.ofDigitChars_ten_toDigits

theorem decimal_injective : Function.Injective decimal := by
  intro n m h
  have hread := congrArg ofDigits? h
  rw [ofDigits?_decimal, ofDigits?_decimal] at hread
  exact Option.some.inj hread

theorem readNumber?_decimal (n : Nat) : readNumber? (decimal n) = some n := by
  have hplus : ∀ rest, decimal n ≠ '+' :: rest := by
    intro rest hd
    have hdigit := isDigit_of_mem_decimal (hd ▸ List.mem_cons_self : '+' ∈ decimal n)
    exact absurd hdigit (by decide)
  unfold readNumber?
  split
  · rename_i rest hd
    exact absurd hd (hplus rest)
  · exact ofDigits?_decimal n

theorem readSize?_decimal {n : Nat} (h : n < Size.limit) : readSize? (decimal n) = some n := by
  rw [readSize?, readNumber?_decimal, Option.bind_some, Size.fit?_eq_some]
  exact ⟨h, rfl⟩

theorem ofDigits?_eq_some {text : List Char} {n : Nat} : ofDigits? text = some n ↔
    text ≠ [] ∧ (∀ c ∈ text, c.isDigit = true) ∧ Nat.ofDigitChars 10 text 0 = n := by
  rw [ofDigits?]
  split
  · rename_i hnumeral
    obtain ⟨hne, hdigits⟩ := hnumeral
    rw [List.all_eq_true] at hdigits
    simp only [Option.some.injEq]
    exact ⟨fun hn => ⟨hne, hdigits, hn⟩, fun h => h.2.2⟩
  · rename_i hnumeral
    constructor
    · intro h
      cases h
    · rintro ⟨hne, hdigits, _⟩
      exact absurd ⟨hne, List.all_eq_true.mpr hdigits⟩ hnumeral

/-- Only digits and plus signs are read as numbers. -/
theorem digit_or_plus_of_readNumber? {text : List Char} {n : Nat} (h : readNumber? text = some n) :
    ∀ c ∈ text, c.isDigit = true ∨ c = '+' := by
  unfold readNumber? at h
  intro c hc
  split at h
  · rcases List.mem_cons.mp hc with rfl | hc
    · exact Or.inr rfl
    · exact Or.inl ((ofDigits?_eq_some.mp h).2.1 c hc)
  · exact Or.inl ((ofDigits?_eq_some.mp h).2.1 c hc)

theorem digit_or_plus_of_readSize? {text : List Char} {n : Nat} (h : readSize? text = some n) :
    ∀ c ∈ text, c.isDigit = true ∨ c = '+' := by
  obtain ⟨number, hnumber, _⟩ := Option.bind_eq_some_iff.mp h
  exact digit_or_plus_of_readNumber? hnumber

end EvmInspect.Text
