import EvmInspect.Json.Grammar
import EvmInspect.Json.Reader
import Mathlib.Tactic.Common

namespace EvmInspect.Json.Reader

def continues (c : Char) : Bool :=
  c.isDigit || c == '.' || c == 'e' || c == 'E'

/-- A number in front of it is at its end. -/
def Closes (rest : List Glyph) : Prop :=
  ∀ c, rest.head? = some (some c) → continues c = false

def EndsDigits (rest : List Glyph) : Prop :=
  ∀ c, rest.head? = some (some c) → c.isDigit = false

theorem skipSpace_cons {g : Glyph} (h : isSpace g = false) (rest : List Glyph) :
    skipSpace (g :: rest) = g :: rest := by
  rw [skipSpace, List.dropWhile_cons_of_neg (by simp [h])]

theorem isSpace_of_mem_gap {gap : List Char} (h : Gap gap) {c : Char} (hc : c ∈ gap) :
    isSpace (some c) = true := by
  rcases h c hc with rfl | rfl | rfl | rfl <;> rfl

theorem skipSpace_gap {gap : List Char} (h : Gap gap) (rest : List Glyph) :
    skipSpace (gap.map some ++ rest) = skipSpace rest := by
  rw [skipSpace, skipSpace, List.dropWhile_append_of_pos]
  intro g hg
  obtain ⟨c, hc, rfl⟩ := List.mem_map.mp hg
  exact isSpace_of_mem_gap h hc

theorem string?_quote (rest : List Glyph) : string? (some '"' :: rest) = some ([], rest) := by
  rw [string?]

theorem string?_escaped {rest behind : List Glyph} {g : Glyph}
    (h : escaped? rest = some (g, behind)) :
    string? (some '\\' :: rest) = (string? behind).map fun found => (g :: found.1, found.2) := by
  rw [string?]
  split
  · rename_i hn
    rw [h] at hn
    cases hn
  · rename_i g' behind' hs
    obtain ⟨rfl, rfl⟩ := Prod.mk.inj (Option.some.inj (h.symm.trans hs))
    rfl

theorem string?_plain {c : Char} (quote : c ≠ '"') (backslash : c ≠ '\\') (printed : 0x20 ≤ c.toNat)
    (rest : List Glyph) :
    string? (some c :: rest) = (string? rest).map fun found => (some c :: found.1, found.2) := by
  rw [string?]
  · have hlow : (some c : Glyph).any (fun c => decide (c.toNat < 0x20)) = false := by
      simpa using printed
    rw [if_neg (by simp [hlow])]
  · simpa using quote
  · simpa using backslash

theorem hexValue?_digitChar : ∀ v < 16,
    hexValue? (Nat.digitChar v) = some v ∧ hexValue? (Nat.digitChar v).toUpper = some v := by
  decide

theorem hexValue?_of_hexDigit {v : Nat} {c : Char} (h : HexDigit v c) : hexValue? c = some v := by
  obtain ⟨hv, rfl | rfl⟩ := h
  · exact (hexValue?_digitChar v hv).1
  · exact (hexValue?_digitChar v hv).2

theorem codeUnit?_append {n : Nat} {digits : List Char} (h : CodeUnit n digits)
    (rest : List Glyph) : codeUnit? (digits.map some ++ rest) = some (n, rest) := by
  cases h with
  | digits ha hb hc hd =>
    simp [codeUnit?, hexValue?_of_hexDigit ha, hexValue?_of_hexDigit hb, hexValue?_of_hexDigit hc,
      hexValue?_of_hexDigit hd]

theorem shortEscape?_of_mem : ∀ row ∈ shortEscapes,
    row.1 ≠ 'u' ∧ shortEscape? row.1 = some row.2 := by
  decide

theorem escaped?_short {mark c : Char} (h : (mark, c) ∈ shortEscapes) (rest : List Glyph) :
    escaped? (some mark :: rest) = some (some c, rest) := by
  obtain ⟨hmark, hshort⟩ := shortEscape?_of_mem _ h
  unfold escaped?
  split
  · rename_i heq
    exact absurd (Option.some.inj (List.cons.inj heq).1) hmark
  · rename_i heq
    obtain ⟨hmark, hrest⟩ := List.cons.inj heq
    rw [← Option.some.inj hmark, ← hrest, hshort]
    rfl
  · rename_i hother
    exact absurd rfl (hother mark rest)

theorem escaped?_number {c : Char} {digits : List Char} (h : CodeUnit c.toNat digits)
    (rest : List Glyph) :
    escaped? (some 'u' :: (digits.map some ++ rest)) = some (some c, rest) := by
  have hvalid : c.toNat < 0xd800 ∨ 0xdfff < c.toNat ∧ c.toNat < 0x110000 := c.valid
  simp only [escaped?, codeUnit?_append h, Option.bind_eq_bind, Option.bind_some]
  rw [if_neg (by omega), if_neg (by omega), Char.ofNat_toNat]
  rfl

/-- What half a surrogate pair and what follows it are read as. -/
theorem escaped?_half {n : Nat} {digits : List Char} (h : CodeUnit n digits) (low : 0xd800 ≤ n)
    (high : n < 0xe000) (rest : List Glyph) :
    escaped? (some 'u' :: (digits.map some ++ rest)) =
      if n < 0xdc00 then
        match lowHalf? rest with
        | some (low, rest) =>
          some (some (Char.ofNat (0x10000 + (n - 0xd800) * 0x400 + (low - 0xdc00))), rest)
        | none => some (none, rest)
      else some (none, rest) := by
  simp only [escaped?, codeUnit?_append h, Option.bind_eq_bind, Option.bind_some]
  by_cases hn : n < 0xdc00
  · rw [if_pos ⟨low, hn⟩, if_pos hn]
    cases lowHalf? rest <;> rfl
  · rw [if_neg (by omega), if_pos (by omega), if_neg hn]
    rfl

theorem lowHalf?_number {n : Nat} {digits : List Char} (h : CodeUnit n digits)
    (rest : List Glyph) :
    lowHalf? (some '\\' :: some 'u' :: (digits.map some ++ rest)) =
      if 0xdc00 ≤ n ∧ n < 0xe000 then some (n, rest) else none := by
  simp only [lowHalf?, codeUnit?_append h, Option.filter_some]
  simp

/-- Half a pair has nothing to go with when no other half follows it. -/
theorem lowHalf?_content {pieces : List Piece} {text : List Char} (h : Content pieces text)
    (hlow : ∀ n more, pieces = .half n :: more → n < 0xdc00) (rest : List Glyph) :
    lowHalf? (text.map some ++ some '"' :: rest) = none := by
  cases h with
  | nil => rfl
  | cons first others =>
    rw [List.map_append, List.append_assoc]
    cases first with
    | plain printed quote backslash =>
      rename_i c
      change lowHalf? (some c :: _) = none
      unfold lowHalf?
      split
      · rename_i heq
        exact absurd (Option.some.inj (List.cons.inj heq).1) backslash
      · rfl
    | short row =>
      rename_i mark c
      change lowHalf? (some '\\' :: some mark :: _) = none
      unfold lowHalf?
      split
      · rename_i heq
        have hmark := Option.some.inj (List.cons.inj (List.cons.inj heq).2).1
        exact absurd hmark (shortEscape?_of_mem _ row).1
      · rfl
    | number unit =>
      rename_i c digits
      have hvalid : c.toNat < 0xd800 ∨ 0xdfff < c.toNat ∧ c.toNat < 0x110000 := c.valid
      exact (lowHalf?_number unit _).trans (if_neg (by omega))
    | half unit low high =>
      have hn := hlow _ _ rfl
      exact (lowHalf?_number unit _).trans (if_neg (by omega))

theorem string?_char {c : Char} {text : List Char} (h : Piece.Written (.char c) text)
    (rest : List Glyph) :
    string? (text.map some ++ rest) =
      (string? rest).map fun found => (some c :: found.1, found.2) := by
  cases h with
  | plain printed quote backslash => exact string?_plain quote backslash printed rest
  | short row => exact string?_escaped (escaped?_short row rest)
  | number unit => exact string?_escaped (escaped?_number unit rest)

/-- Half a pair with nothing to go with is no character. -/
theorem string?_half {n : Nat} {text : List Char} (h : Piece.Written (.half n) text)
    {rest : List Glyph} (hlone : n < 0xdc00 → lowHalf? rest = none) :
    string? (text.map some ++ rest) =
      (string? rest).map fun found => (none :: found.1, found.2) := by
  cases h with
  | half unit low high =>
    apply string?_escaped
    refine (escaped?_half unit low high rest).trans ?_
    split
    · rename_i hn
      rw [hlone hn]
    · rfl

/-- Two halves of a pair are one character. -/
theorem string?_pair {high low : Nat} {first second : List Char}
    (hfirst : Piece.Written (.half high) first) (hsecond : Piece.Written (.half low) second)
    (hhigh : high < 0xdc00) (hlow : 0xdc00 ≤ low) (rest : List Glyph) :
    string? (first.map some ++ (second.map some ++ rest)) = (string? rest).map fun found =>
      (some (Char.ofNat (0x10000 + (high - 0xd800) * 0x400 + (low - 0xdc00))) :: found.1,
        found.2) := by
  cases hsecond with
  | half unit _ stop =>
    have hread := lowHalf?_number unit rest
    rw [if_pos ⟨hlow, stop⟩] at hread
    cases hfirst with
    | half unit start stop =>
      apply string?_escaped
      refine (escaped?_half unit start stop _).trans ?_
      rw [if_pos hhigh, List.map_cons, List.map_cons, List.cons_append, List.cons_append, hread]

/-- A string is read as what is written in it. -/
theorem string?_content {pieces : List Piece} {text : List Char} (h : Content pieces text)
    (rest : List Glyph) :
    string? (text.map some ++ some '"' :: rest) = some (Piece.join pieces, rest) := by
  fun_induction Piece.join pieces generalizing text with
  | case1 =>
    cases h
    exact string?_quote rest
  | case2 c pieces ih =>
    obtain _ | ⟨first, others⟩ := h
    rw [List.map_append, List.append_assoc, string?_char first, ih others]
    rfl
  | case3 high low pieces hpair ih =>
    obtain _ | ⟨first, _ | ⟨second, others⟩⟩ := h
    rw [List.map_append, List.map_append, List.append_assoc, List.append_assoc,
      string?_pair first second hpair.1 hpair.2, ih others]
    rfl
  | case4 high low pieces hpair ih =>
    obtain _ | ⟨first, others⟩ := h
    have hlow (hhigh : high < 0xdc00) :
        ∀ n more, .half low :: pieces = .half n :: more → n < 0xdc00 := by
      rintro n more heq
      obtain rfl := Piece.half.inj (List.cons.inj heq).1
      omega
    rw [List.map_append, List.append_assoc,
      string?_half first fun hhigh => lowHalf?_content others (hlow hhigh) rest, ih others]
    rfl
  | case5 n pieces hsingle ih =>
    obtain _ | ⟨first, others⟩ := h
    have hlone := lowHalf?_content others (fun low more heq => absurd heq (hsingle low more)) rest
    rw [List.map_append, List.append_assoc, string?_half first fun _ => hlone, ih others]
    rfl

theorem Closes.endsDigits {rest : List Glyph} (h : Closes rest) : EndsDigits rest := by
  intro c hc
  have hstop := h c hc
  simp only [continues, Bool.or_eq_false_iff] at hstop
  exact hstop.1.1.1

theorem endsDigits_cons {c : Char} (h : c.isDigit = false) (rest : List Glyph) :
    EndsDigits (some c :: rest) := by
  intro d hd
  obtain rfl : c = d := Option.some.inj (Option.some.inj hd)
  exact h

theorem digits_append {found : List Char} (h : ∀ c ∈ found, c.isDigit = true) {rest : List Glyph}
    (ends : EndsDigits rest) : digits (found.map some ++ rest) = (found, rest) := by
  induction found with
  | nil =>
    rw [List.map_nil, List.nil_append]
    unfold digits
    split
    · rename_i c more
      simp [ends c rfl]
    · rfl
  | cons c found ih =>
    obtain ⟨hc, hfound⟩ := List.forall_mem_cons.mp h
    rw [List.map_cons, List.cons_append, digits, ih hfound, if_pos hc]

theorem someDigits?_append {found : List Char} (h : Digits found) {rest : List Glyph}
    (ends : EndsDigits rest) : someDigits? (found.map some ++ rest) = some (found, rest) := by
  simp [someDigits?, digits_append h.2 ends, h.1]

variable {sign whole fraction exponent : List Char} {rest : List Glyph}

theorem whole?_append (h : Numeral sign whole fraction exponent) (ends : EndsDigits rest) :
    whole? (whole.map some ++ rest) = some (whole, rest) := by
  have hplain : (whole.head? != some '0' || whole.length == 1) = true := by
    rcases h.plain with rfl | hne
    · rfl
    · simp [hne]
  simp [whole?, someDigits?_append h.digits ends, hplain]

theorem minus_append (h : sign = [] ∨ sign = ['-']) (hne : rest.head? ≠ some (some '-')) :
    minus (sign.map some ++ rest) = (sign, rest) := by
  rcases h with rfl | rfl
  · rw [List.map_nil, List.nil_append]
    unfold minus
    split
    · exact absurd rfl hne
    · rfl
  · rfl

theorem fraction?_append (h : Numeral sign whole fraction exponent) (ends : EndsDigits rest)
    (hne : rest.head? ≠ some (some '.')) :
    fraction? (fraction.map some ++ rest) = some (fraction, rest) := by
  rcases h.fraction with rfl | ⟨digits, rfl, hdigits⟩
  · rw [List.map_nil, List.nil_append]
    unfold fraction?
    split
    · exact absurd rfl hne
    · rfl
  · rw [List.map_cons, List.cons_append, fraction?, someDigits?_append hdigits ends]
    rfl

theorem exponentSign_append {digits : List Char} (hs : sign = [] ∨ sign = ['+'] ∨ sign = ['-'])
    (hd : Digits digits) (rest : List Glyph) :
    exponentSign ((sign ++ digits).map some ++ rest) = (sign, digits.map some ++ rest) := by
  obtain ⟨c, more, rfl⟩ := List.exists_cons_of_ne_nil hd.1
  have hc := hd.2 c List.mem_cons_self
  rcases hs with rfl | rfl | rfl
  · rw [List.nil_append, List.map_cons, List.cons_append]
    unfold exponentSign
    split
    · rename_i heq
      obtain rfl := Option.some.inj (List.cons.inj heq).1
      exact absurd hc (by decide)
    · rename_i heq
      obtain rfl := Option.some.inj (List.cons.inj heq).1
      exact absurd hc (by decide)
    · rfl
  · rfl
  · rfl

theorem exponent?_append (h : Numeral sign whole fraction exponent) (closes : Closes rest) :
    exponent? (exponent.map some ++ rest) = some (exponent, rest) := by
  rcases h.exponent with rfl | ⟨mark, sign, digits, rfl, hmark, hsign, hdigits⟩
  · rw [List.map_nil, List.nil_append]
    unfold exponent?
    split
    · rename_i c more
      have hne : ¬ (c = 'e' ∨ c = 'E') := by
        rintro (rfl | rfl)
        · exact absurd (closes 'e' rfl) (by decide)
        · exact absurd (closes 'E' rfl) (by decide)
      rw [if_neg hne]
    · rfl
  · rw [List.map_cons, List.cons_append, exponent?, if_pos hmark,
      exponentSign_append hsign hdigits]
    dsimp only
    rw [someDigits?_append hdigits closes.endsDigits]
    rfl

/-- What follows the digits of a number, or its fraction, is no digit. -/
theorem endsDigits_exponent (h : Numeral sign whole fraction exponent) (closes : Closes rest) :
    EndsDigits (exponent.map some ++ rest) ∧
      (exponent.map some ++ rest).head? ≠ some (some '.') := by
  rcases h.exponent with rfl | ⟨mark, sign, digits, rfl, hmark, _, _⟩
  · refine ⟨closes.endsDigits, ?_⟩
    intro hpoint
    exact absurd (closes '.' hpoint) (by decide)
  · rcases hmark with rfl | rfl
    · exact ⟨endsDigits_cons rfl _, by simp⟩
    · exact ⟨endsDigits_cons rfl _, by simp⟩

theorem endsDigits_fraction (h : Numeral sign whole fraction exponent) (closes : Closes rest) :
    EndsDigits (fraction.map some ++ (exponent.map some ++ rest)) := by
  rcases h.fraction with rfl | ⟨digits, rfl, _⟩
  · exact (endsDigits_exponent h closes).1
  · exact endsDigits_cons rfl _

/-- A number is read as it is spelled. -/
theorem number?_numeral (h : Numeral sign whole fraction exponent) (closes : Closes rest) :
    number? ((sign ++ (whole ++ (fraction ++ exponent))).map some ++ rest) =
      some (sign ++ (whole ++ (fraction ++ exponent)), rest) := by
  have hfirst : (whole.map some ++ (fraction.map some ++ (exponent.map some ++ rest))).head? ≠
      some (some '-') := by
    obtain ⟨c, more, rfl⟩ := List.exists_cons_of_ne_nil h.digits.1
    intro heq
    obtain rfl : c = '-' := Option.some.inj (Option.some.inj heq)
    exact absurd (h.digits.2 _ List.mem_cons_self) (by decide)
  obtain ⟨hends, hpoint⟩ := endsDigits_exponent h closes
  simp only [List.map_append, List.append_assoc]
  simp [number?, minus_append h.sign hfirst, whole?_append h (endsDigits_fraction h closes),
    fraction?_append h hends hpoint, exponent?_append h closes]

/-- A number begins with a digit or with its sign. -/
theorem exists_first_of_numeral (h : Numeral sign whole fraction exponent) : ∃ c more,
    sign ++ (whole ++ (fraction ++ exponent)) = c :: more ∧ (c = '-' ∨ c.isDigit = true) := by
  rcases h.sign with rfl | rfl
  · obtain ⟨c, more, rfl⟩ := List.exists_cons_of_ne_nil h.digits.1
    exact ⟨c, _, rfl, Or.inr (h.digits.2 c List.mem_cons_self)⟩
  · exact ⟨'-', _, rfl, Or.inl rfl⟩

end EvmInspect.Json.Reader
