import EvmInspect.Json

namespace EvmInspect.Json.Reader

/-- A character of the input, or a gap where bytes spell none. A document can be read that holds
such bytes in a string that nobody asks for. -/
abbrev Glyph := Option Char

def isSpace (g : Glyph) : Bool :=
  g == some ' ' || g == some '\n' || g == some '\t' || g == some '\r'

def skipSpace (input : List Glyph) : List Glyph :=
  input.dropWhile isSpace

def text? (glyphs : List Glyph) : Option String :=
  (glyphs.mapM id).map String.ofList

def hexValue? (c : Char) : Option Nat :=
  if '0' ≤ c ∧ c ≤ '9' then some (c.toNat - 0x30)
  else if 'a' ≤ c ∧ c ≤ 'f' then some (c.toNat - 0x57)
  else if 'A' ≤ c ∧ c ≤ 'F' then some (c.toNat - 0x37)
  else none

def codeUnit? : List Glyph → Option (Nat × List Glyph)
  | some a :: some b :: some c :: some d :: rest => do
    let a ← hexValue? a
    let b ← hexValue? b
    let c ← hexValue? c
    let d ← hexValue? d
    pure (((a * 16 + b) * 16 + c) * 16 + d, rest)
  | _ => none

def shortEscape? : Char → Option Char
  | '"' => some '"'
  | '\\' => some '\\'
  | '/' => some '/'
  | 'b' => some '\x08'
  | 'f' => some '\x0c'
  | 'n' => some '\n'
  | 'r' => some '\r'
  | 't' => some '\t'
  | _ => none

def lowHalf? : List Glyph → Option (Nat × List Glyph)
  | some '\\' :: some 'u' :: rest =>
    (codeUnit? rest).filter fun (n, _) => 0xdc00 ≤ n && n < 0xe000
  | _ => none

/-- What an escape spells, read behind its backslash. Half a surrogate pair is a gap. -/
def escaped? : List Glyph → Option (Glyph × List Glyph)
  | some 'u' :: rest => do
    let (high, rest) ← codeUnit? rest
    if 0xd800 ≤ high ∧ high < 0xdc00 then
      match lowHalf? rest with
      | some (low, rest) =>
        pure (some (Char.ofNat (0x10000 + (high - 0xd800) * 0x400 + (low - 0xdc00))), rest)
      | none => pure (none, rest)
    else if 0xdc00 ≤ high ∧ high < 0xe000 then pure (none, rest)
    else pure (some (Char.ofNat high), rest)
  | some c :: rest => (shortEscape? c).map fun c => (some c, rest)
  | _ => none

theorem codeUnit?_length {input rest : List Glyph} {n : Nat}
    (h : codeUnit? input = some (n, rest)) :
    rest.length < input.length := by
  unfold codeUnit? at h
  split at h
  · simp only [bind, Option.bind_eq_some_iff] at h
    obtain ⟨a, _, b, _, c, _, d, _, h⟩ := h
    simp only [pure, Option.some.injEq, Prod.mk.injEq] at h
    obtain ⟨-, rfl⟩ := h
    simp only [List.length_cons]
    omega
  · simp at h

theorem lowHalf?_length {input rest : List Glyph} {n : Nat}
    (h : lowHalf? input = some (n, rest)) :
    rest.length < input.length := by
  unfold lowHalf? at h
  split at h
  · have := codeUnit?_length (Option.filter_eq_some_iff.mp h).1
    simp only [List.length_cons]
    omega
  · simp at h

theorem escaped?_length {input rest : List Glyph} {g : Glyph}
    (h : escaped? input = some (g, rest)) :
    rest.length < input.length := by
  unfold escaped? at h
  split at h
  · simp only [bind, Option.bind_eq_some_iff] at h
    obtain ⟨⟨high, behind⟩, hu, h⟩ := h
    have hlen := codeUnit?_length hu
    simp only [List.length_cons]
    split at h
    · split at h
      · next hl =>
        have hlow := lowHalf?_length hl
        dsimp only at hlow
        simp only [pure, Option.some.injEq, Prod.mk.injEq] at h
        obtain ⟨-, rfl⟩ := h
        omega
      · simp only [pure, Option.some.injEq, Prod.mk.injEq] at h
        obtain ⟨-, rfl⟩ := h
        omega
    · split at h
      all_goals
        simp only [pure, Option.some.injEq, Prod.mk.injEq] at h
        obtain ⟨-, rfl⟩ := h
        omega
  · obtain ⟨c, -, h⟩ := Option.map_eq_some_iff.mp h
    simp only [Prod.mk.injEq] at h
    obtain ⟨-, rfl⟩ := h
    simp
  · simp at h

/-- The content of a string, read behind its opening quote, and what follows its closing one. -/
def string? (input : List Glyph) : Option (List Glyph × List Glyph) :=
  match input with
  | [] => none
  | some '"' :: rest => some ([], rest)
  | some '\\' :: rest =>
    match h : escaped? rest with
    | none => none
    | some (g, behind) =>
      have : behind.length < rest.length := escaped?_length h
      (string? behind).map fun (content, rest) => (g :: content, rest)
  | g :: rest =>
    if g.any (·.toNat < 0x20) then none
    else (string? rest).map fun (content, rest) => (g :: content, rest)
termination_by input.length

def digits : List Glyph → List Char × List Glyph
  | some c :: rest =>
    if c.isDigit then
      let (more, rest) := digits rest
      (c :: more, rest)
    else ([], some c :: rest)
  | rest => ([], rest)

def someDigits? (input : List Glyph) : Option (List Char × List Glyph) :=
  let (found, rest) := digits input
  if found.isEmpty then none else some (found, rest)

def minus : List Glyph → List Char × List Glyph
  | some '-' :: rest => (['-'], rest)
  | rest => ([], rest)

/-- Digits that do not begin with a needless zero. -/
def whole? (input : List Glyph) : Option (List Char × List Glyph) :=
  (someDigits? input).filter fun (found, _) => found.head? != some '0' || found.length == 1

def fraction? : List Glyph → Option (List Char × List Glyph)
  | some '.' :: rest => (someDigits? rest).map fun (found, rest) => ('.' :: found, rest)
  | rest => some ([], rest)

def exponentSign : List Glyph → List Char × List Glyph
  | some '+' :: rest => (['+'], rest)
  | some '-' :: rest => (['-'], rest)
  | rest => ([], rest)

def exponent? : List Glyph → Option (List Char × List Glyph)
  | some c :: rest =>
    if c = 'e' ∨ c = 'E' then
      let (sign, rest) := exponentSign rest
      (someDigits? rest).map fun (found, rest) => (c :: (sign ++ found), rest)
    else some ([], some c :: rest)
  | rest => some ([], rest)

def number? (input : List Glyph) : Option (List Char × List Glyph) := do
  let (sign, rest) := minus input
  let (whole, rest) ← whole? rest
  let (fraction, rest) ← fraction? rest
  let (exponent, rest) ← exponent? rest
  pure (sign ++ (whole ++ (fraction ++ exponent)), rest)

def word? : List Char → List Glyph → Option (List Glyph)
  | [], rest => some rest
  | c :: word, some d :: rest => if c = d then word? word rest else none
  | _ :: _, _ => none

mutual
def value? : (fuel : Nat) → List Glyph → Option (Json × List Glyph)
  | 0, _ => none
  | fuel + 1, input =>
    match skipSpace input with
    | some 'n' :: rest => (word? ['u', 'l', 'l'] rest).map (.null, ·)
    | some 't' :: rest => (word? ['r', 'u', 'e'] rest).map (.bool true, ·)
    | some 'f' :: rest => (word? ['a', 'l', 's', 'e'] rest).map (.bool false, ·)
    | some '"' :: rest => (string? rest).map fun (content, rest) => (.string (text? content), rest)
    | some '[' :: rest =>
      match skipSpace rest with
      | some ']' :: rest => some (.array [], rest)
      | _ => (items? fuel rest).map fun (items, rest) => (.array items, rest)
    | some '\x7b' :: rest =>
      match skipSpace rest with
      | some '\x7d' :: rest => some (.object [], rest)
      | _ => (members? fuel rest).map fun (members, rest) => (.object members, rest)
    | rest => (number? rest).map fun (spelled, rest) => (.number (String.ofList spelled), rest)

def items? : (fuel : Nat) → List Glyph → Option (List Json × List Glyph)
  | 0, _ => none
  | fuel + 1, input => do
    let (item, rest) ← value? fuel input
    match skipSpace rest with
    | some ',' :: rest => (items? fuel rest).map fun (items, rest) => (item :: items, rest)
    | some ']' :: rest => some ([item], rest)
    | _ => none

def members? : (fuel : Nat) → List Glyph → Option (List (Option String × Json) × List Glyph)
  | 0, _ => none
  | fuel + 1, input =>
    match skipSpace input with
    | some '"' :: rest => do
      let (key, rest) ← string? rest
      match skipSpace rest with
      | some ':' :: rest => do
        let (value, rest) ← value? fuel rest
        let member := (text? key, value)
        match skipSpace rest with
        | some ',' :: rest =>
          (members? fuel rest).map fun (members, rest) => (member :: members, rest)
        | some '\x7d' :: rest => some ([member], rest)
        | _ => none
      | _ => none
    | _ => none
end

/-- The document that makes up the whole input. Two steps for each glyph are enough. -/
def read? (input : List Glyph) : Option Json :=
  match value? (2 * input.length + 2) input with
  | some (json, rest) => if (skipSpace rest).isEmpty then some json else none
  | none => none

end Json.Reader

def Json.ofText? (text : String) : Option Json :=
  Json.Reader.read? (text.toList.map some)

end EvmInspect
