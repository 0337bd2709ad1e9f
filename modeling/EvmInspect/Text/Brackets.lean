namespace EvmInspect.Text

/-- The parts of a text between the commas outside parentheses, when `depth` parentheses are open.
A closing parenthesis that none opened does not count. -/
def splitOutside (depth : Nat) : List Char → List (List Char)
  | [] => [[]]
  | c :: text =>
    if c = ',' ∧ depth = 0 then [] :: splitOutside 0 text
    else
      let depth := if c = '(' then depth + 1 else if c = ')' then depth - 1 else depth
      match splitOutside depth text with
      | part :: parts => (c :: part) :: parts
      | [] => [[c]]

def splitTopLevel (text : List Char) : List (List Char) :=
  splitOutside 0 text

/-- The text around the parenthesis that closes a list, when `depth` more are open. -/
def closing? (depth : Nat) : List Char → Option (List Char × List Char)
  | [] => none
  | c :: text =>
    let keep (found : List Char × List Char) := (c :: found.1, found.2)
    if c = '(' then (closing? (depth + 1) text).map keep
    else if c = ')' then
      match depth with
      | 0 => some ([], text)
      | depth + 1 => (closing? depth text).map keep
    else (closing? depth text).map keep

/-- A list read behind its opening parenthesis: what it holds, and what follows it. A list that is
not closed runs to the end. -/
def listBody (text : List Char) : List Char × List Char :=
  (closing? 0 text).getD (text, [])

/-- How many parentheses are open behind a text, when `depth` are open before it. There is no answer
if one is closed that was never opened. -/
def opened? (depth : Nat) : List Char → Option Nat
  | [] => some depth
  | c :: text =>
    if c = '(' then opened? (depth + 1) text
    else if c = ')' then
      match depth with
      | 0 => none
      | depth + 1 => opened? depth text
    else opened? depth text

def Balanced (text : List Char) : Prop :=
  opened? 0 text = some 0

instance (text : List Char) : Decidable (Balanced text) :=
  inferInstanceAs (Decidable (opened? 0 text = some 0))

/-- A text whose commas all stand in parentheses: something is open behind what comes before one.
-/
def CommasInside (text : List Char) : Prop :=
  ∀ n < text.length, text[n]? = some ',' → opened? 0 (text.take n) ≠ some 0

instance (text : List Char) : Decidable (CommasInside text) :=
  inferInstanceAs (Decidable (∀ n < text.length, text[n]? = some ',' → _))

/-- What stands before the parenthesis that closes a list closes all that is open. -/
theorem eq_append_of_closing? {depth : Nat} {text body rest : List Char}
    (h : closing? depth text = some (body, rest)) :
    text = body ++ ')' :: rest ∧ opened? depth body = some 0 := by
  induction text generalizing depth body with
  | nil => simp [closing?] at h
  | cons c text ih =>
    by_cases ho : c = '('
    · simp only [closing?, if_pos ho, Option.map_eq_some_iff, Prod.mk.injEq] at h
      obtain ⟨⟨b, r⟩, hb, rfl, rfl⟩ := h
      obtain ⟨ht, hd⟩ := ih hb
      exact ⟨by simp [ht], by simpa [opened?, ho] using hd⟩
    · by_cases hc : c = ')'
      · cases depth with
        | zero =>
          simp only [closing?, if_neg ho, if_pos hc, Option.some.injEq, Prod.mk.injEq] at h
          obtain ⟨rfl, rfl⟩ := h
          exact ⟨by simp [hc], rfl⟩
        | succ depth =>
          simp only [closing?, if_neg ho, if_pos hc, Option.map_eq_some_iff, Prod.mk.injEq] at h
          obtain ⟨⟨b, r⟩, hb, rfl, rfl⟩ := h
          obtain ⟨ht, hd⟩ := ih hb
          exact ⟨by simp [ht], by simpa [opened?, hc] using hd⟩
      · simp only [closing?, if_neg ho, if_neg hc, Option.map_eq_some_iff, Prod.mk.injEq] at h
        obtain ⟨⟨b, r⟩, hb, rfl, rfl⟩ := h
        obtain ⟨ht, hd⟩ := ih hb
        exact ⟨by simp [ht], by simpa [opened?, ho, hc] using hd⟩

theorem splitOutside_ne_nil (depth : Nat) (text : List Char) : splitOutside depth text ≠ [] := by
  cases text with
  | nil => simp [splitOutside]
  | cons c text =>
    unfold splitOutside
    split
    · simp
    · dsimp only
      split <;> simp

/-- The parts with commas between them are the text. -/
theorem intercalate_splitOutside (depth : Nat) (text : List Char) :
    [','].intercalate (splitOutside depth text) = text := by
  induction text generalizing depth with
  | nil => rfl
  | cons c text ih =>
    unfold splitOutside
    split
    · next h =>
      have hne := splitOutside_ne_nil 0 text
      have hrest := ih 0
      cases hs : splitOutside 0 text with
      | nil => exact absurd hs hne
      | cons part parts =>
        rw [hs] at hrest
        rw [List.intercalate_cons_cons, hrest, h.1]
        rfl
    · dsimp only
      generalize (if c = '(' then depth + 1 else if c = ')' then depth - 1 else depth) = next
      have hrest := ih next
      split
      · next part parts hs =>
        rw [hs] at hrest
        cases parts with
        | nil =>
          rw [List.intercalate_singleton] at hrest ⊢
          rw [hrest]
        | cons second parts =>
          rw [List.intercalate_cons_cons] at hrest ⊢
          rw [← hrest]
          rfl
      · next hs => exact absurd hs (splitOutside_ne_nil next text)

end EvmInspect.Text
