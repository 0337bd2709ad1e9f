import EvmInspect.Proofs.Canonical

namespace EvmInspect

namespace Text

def squeeze (text : List Char) : List Char :=
  text.filter (! isBlank ·)

def numerals (text : List Char) : List (List Char) :=
  text.splitOnP (! Char.isDigit ·)

/-- A text without plus signs in which zero is the only numeral that begins with a zero. -/
def PlainNumerals (text : List Char) : Prop :=
  '+' ∉ text ∧ ∀ digits ∈ numerals text, digits.head? = some '0' → digits = ['0']

instance (text : List Char) : Decidable (PlainNumerals text) :=
  inferInstanceAs (Decidable ('+' ∉ text ∧ ∀ digits ∈ numerals text, _))

theorem squeeze_append (text rest : List Char) :
    squeeze (text ++ rest) = squeeze text ++ squeeze rest :=
  List.filter_append ..

theorem squeeze_of_blank {gap : List Char} (h : ∀ c ∈ gap, isBlank c = true) :
    squeeze gap = [] := by
  rw [squeeze, List.filter_eq_nil_iff]
  intro c hc
  simp [h c hc]

theorem squeeze_unbroken {text : List Char} (h : ∀ c ∈ text, isBlank c = false) :
    squeeze text = text := by
  rw [squeeze, List.filter_eq_self]
  intro c hc
  simp [h c hc]

theorem squeeze_cons {c : Char} (h : isBlank c = false) (text : List Char) :
    squeeze (c :: text) = c :: squeeze text :=
  List.filter_cons_of_pos (by simp [h])

theorem squeeze_trim (text : List Char) : squeeze (trim text) = squeeze text := by
  obtain ⟨before, behind, htext, hbefore, hbehind⟩ := exists_gaps text
  conv_rhs => rw [htext, squeeze_append, squeeze_append, squeeze_of_blank hbefore,
    squeeze_of_blank hbehind, List.nil_append, List.append_nil]

/-- The first of some texts, and behind it the others, each behind a comma. -/
theorem intercalate_cons (first : List Char) (texts : List (List Char)) :
    [','].intercalate (first :: texts) = first ++ texts.flatMap (',' :: ·) := by
  induction texts generalizing first with
  | nil => simp
  | cons second texts ih =>
    rw [List.intercalate_cons_cons, ih, List.flatMap_cons]
    simp

theorem squeeze_flatMap (texts : List (List Char)) :
    squeeze (texts.flatMap (',' :: ·)) = texts.flatMap (',' :: squeeze ·) := by
  have hcomma (text : List Char) : (',' :: text).filter (! isBlank ·) = ',' :: squeeze text :=
    squeeze_cons (by decide) text
  rw [squeeze, List.filter_flatMap]
  simp only [hcomma]

theorem numerals_append {c : Char} (hc : c.isDigit = false) (text rest : List Char) :
    numerals (text ++ c :: rest) = numerals text ++ numerals rest :=
  List.splitOnP_append_cons text rest (by simp [hc])

theorem numerals_digits {digits : List Char} (h : ∀ c ∈ digits, c.isDigit = true) :
    numerals digits = [digits] :=
  List.splitOnP_eq_singleton fun c hc => by simp [h c hc]

/-- A character that is no digit keeps numerals apart. -/
theorem plainNumerals_append {c : Char} (hc : c.isDigit = false) {text rest : List Char}
    (h : PlainNumerals (text ++ c :: rest)) : PlainNumerals text ∧ PlainNumerals rest := by
  obtain ⟨hplus, hplain⟩ := h
  rw [numerals_append hc] at hplain
  rw [List.mem_append, List.mem_cons, not_or, not_or] at hplus
  refine ⟨⟨hplus.1, ?_⟩, ⟨hplus.2.2, ?_⟩⟩
  · exact fun digits hd => hplain digits (List.mem_append_left _ hd)
  · exact fun digits hd => hplain digits (List.mem_append_right _ hd)

theorem PlainNumerals.behind {start text : List Char} (hs : ∀ c ∈ start, c.isDigit = false)
    (h : PlainNumerals (start ++ text)) : PlainNumerals text := by
  induction start with
  | nil => exact h
  | cons c start ih =>
    obtain ⟨hc, hstart⟩ := List.forall_mem_cons.mp hs
    have hrest : PlainNumerals ([] ++ c :: (start ++ text)) := h
    exact ih hstart (plainNumerals_append hc hrest).2

theorem PlainNumerals.before {text rest : List Char} (hr : ∀ c ∈ rest, c.isDigit = false)
    (h : PlainNumerals (text ++ rest)) : PlainNumerals text := by
  cases rest with
  | nil => rwa [List.append_nil] at h
  | cons c rest => exact (plainNumerals_append (hr c List.mem_cons_self) h).1

theorem not_isDigit_of_isBlank {c : Char} (h : isBlank c = true) : c.isDigit = false := by
  cases hd : c.isDigit with
  | false => rfl
  | true =>
    have hplain : c.isAlphanum = true := by simp [Char.isAlphanum, hd]
    rw [isBlank_of_isAlphanum hplain] at h
    cases h

theorem PlainNumerals.trim {text : List Char} (h : PlainNumerals text) :
    PlainNumerals (Text.trim text) := by
  obtain ⟨before, behind, htext, hbefore, hbehind⟩ := exists_gaps text
  rw [htext] at h
  exact (h.behind fun c hc => not_isDigit_of_isBlank (hbefore c hc)).before
    fun c hc => not_isDigit_of_isBlank (hbehind c hc)

theorem PlainNumerals.of_mem_intercalate {texts : List (List Char)}
    (h : PlainNumerals ([','].intercalate texts)) : ∀ text ∈ texts, PlainNumerals text := by
  induction texts with
  | nil => simp
  | cons text texts ih =>
    cases texts with
    | nil => simpa using h
    | cons second texts =>
      rw [List.intercalate_cons_cons, List.append_assoc, List.singleton_append] at h
      obtain ⟨hfirst, hrest⟩ := plainNumerals_append (by decide) h
      exact List.forall_mem_cons.mpr ⟨hfirst, ih hrest⟩

/-- The character of a digit is told by its number. -/
theorem digitChar_of_isDigit {c : Char} (h : c.isDigit = true) :
    c.toNat - 48 < 10 ∧ (c.toNat - 48).digitChar = c := by
  obtain ⟨hfirst, hlast⟩ := Bool.and_eq_true_iff.mp h
  have hge : 48 ≤ c.toNat := of_decide_eq_true hfirst
  have hle : c.toNat ≤ 57 := of_decide_eq_true hlast
  have hlt : c.toNat - 48 < 10 := by omega
  refine ⟨hlt, Char.toNat_inj.mp ?_⟩
  rw [Nat.toNat_digitChar_of_lt_ten hlt]
  omega

/-- Digits behind those of a number other than zero are digits of the larger number. -/
theorem decimal_ofDigitChars {digits : List Char} (h : ∀ c ∈ digits, c.isDigit = true) {n : Nat}
    (hn : 0 < n) : decimal (Nat.ofDigitChars 10 digits n) = decimal n ++ digits := by
  induction digits generalizing n with
  | nil => simp
  | cons c digits ih =>
    obtain ⟨hc, hdigits⟩ := List.forall_mem_cons.mp h
    obtain ⟨hlt, hchar⟩ := digitChar_of_isDigit hc
    have hfirst := Nat.toDigits_append_toDigits (b := 10) (by decide) hn hlt
    rw [Nat.toDigits_of_lt_base hlt, hchar] at hfirst
    rw [Nat.ofDigitChars_cons, ih hdigits (by omega), decimal, decimal, List.append_cons, hfirst]
    rfl

theorem decimal_ofDigitChars_cons {c : Char} {digits : List Char}
    (h : ∀ d ∈ c :: digits, d.isDigit = true) (hc : c ≠ '0') :
    decimal (Nat.ofDigitChars 10 (c :: digits) 0) = c :: digits := by
  obtain ⟨hfirst, hdigits⟩ := List.forall_mem_cons.mp h
  obtain ⟨hlt, hchar⟩ := digitChar_of_isDigit hfirst
  have hpos : 0 < c.toNat - 48 := by
    refine Nat.pos_of_ne_zero fun hzero => hc ?_
    rw [← hchar, hzero]
    rfl
  have hone : decimal (c.toNat - 48) = [c] := by
    rw [decimal, Nat.toDigits_of_lt_base hlt, hchar]
  rw [Nat.ofDigitChars_cons, Nat.mul_zero, Nat.zero_add]
  exact (decimal_ofDigitChars hdigits hpos).trans (by rw [hone, List.singleton_append])

/-- A numeral without a sign or leading zeros is the decimal form of its number. -/
theorem decimal_of_readSize? {digits : List Char} {n : Nat} (h : readSize? digits = some n)
    (hplain : PlainNumerals digits) : decimal n = digits := by
  obtain ⟨number, hnumber, hfit⟩ := Option.bind_eq_some_iff.mp h
  obtain ⟨_, rfl⟩ := Size.fit?_eq_some.mp hfit
  unfold readNumber? at hnumber
  split at hnumber
  · exact absurd List.mem_cons_self hplain.1
  · obtain ⟨hne, hdigits, rfl⟩ := ofDigits?_eq_some.mp hnumber
    obtain ⟨c, rest, rfl⟩ := List.exists_cons_of_ne_nil hne
    by_cases hc : c = '0'
    · have hmem : c :: rest ∈ numerals (c :: rest) := by
        rw [numerals_digits hdigits]
        exact List.mem_singleton_self _
      rw [hplain.2 _ hmem (by rw [hc]; rfl)]
      rfl
    · exact decimal_ofDigitChars_cons hdigits hc

end Text

namespace Abi.AbiType

/-- A word, and in full when it is one of the short ones. -/
def inFull (word : List Char) : List Char :=
  match word with
  | ['u', 'i', 'n', 't'] => ['u', 'i', 'n', 't', '2', '5', '6']
  | ['i', 'n', 't'] => ['i', 'n', 't', '2', '5', '6']
  | ['b', 'y', 't', 'e'] => ['b', 'y', 't', 'e', 's', '1']
  | _ => word

/-- A text behind the beginning of a word, with short words in full, and without the word that
stands directly before the parenthesis of a tuple. -/
def expand (word : List Char) : List Char → List Char
  | [] => inFull word
  | c :: text =>
    if c.isAlphanum then expand (word ++ [c]) text
    else if c = '(' ∧ word = ['t', 'u', 'p', 'l', 'e'] then c :: expand [] text
    else inFull word ++ c :: expand [] text

/-- A text without the members of tuples in which nothing stands. A comma goes that directly follows
an opening parenthesis, or that stands before another comma or a closing parenthesis. -/
def dropVoids (opened : Bool) : List Char → List Char
  | [] => []
  | c :: text =>
    if c = ',' ∧ (opened ∨ text.head? = some ',' ∨ text.head? = some ')') then
      dropVoids opened text
    else c :: dropVoids (c == '(') text

def core (text : List Char) : List Char :=
  expand [] (Text.squeeze text)

def tidied (text : String) : String :=
  String.ofList (dropVoids false (core text.toList))

/-- A character that belongs to no word ends the one before it. -/
theorem expand_append {c : Char} (hc : c.isAlphanum = false) (hopen : c ≠ '(')
    (word text rest : List Char) :
    expand word (text ++ c :: rest) = expand word text ++ c :: expand [] rest := by
  induction text generalizing word with
  | nil => simp [expand, hc, hopen]
  | cons d text ih =>
    rw [List.cons_append, expand, expand]
    split
    · exact ih _
    · split
      · rw [ih, List.cons_append]
      · rw [ih, List.append_assoc, List.cons_append]

theorem expand_word {word text : List Char} (h : ∀ c ∈ text, c.isAlphanum = true) :
    expand word text = inFull (word ++ text) := by
  induction text generalizing word with
  | nil => rw [expand, List.append_nil]
  | cons c text ih =>
    obtain ⟨hc, htext⟩ := List.forall_mem_cons.mp h
    rw [expand, if_pos hc, ih htext, List.append_assoc, List.singleton_append]

theorem expand_list (first : List Char) (texts : List (List Char)) (rest : List Char) :
    expand [] (first ++ (texts.flatMap (',' :: ·) ++ ')' :: rest)) =
      expand [] first ++ (texts.flatMap (',' :: expand [] ·) ++ ')' :: expand [] rest) := by
  induction texts generalizing first with
  | nil => exact expand_append (by decide) (by decide) [] first rest
  | cons text texts ih =>
    rw [List.flatMap_cons, List.flatMap_cons, List.append_assoc, List.append_assoc,
      List.cons_append, List.cons_append, expand_append (by decide) (by decide), ih]

/-- What is neither a comma nor an opening parenthesis stays. -/
theorem dropVoids_append {opened : Bool} {text : List Char} (hne : text ≠ [])
    (h : ∀ c ∈ text, c ≠ ',' ∧ c ≠ '(') (rest : List Char) :
    dropVoids opened (text ++ rest) = text ++ dropVoids false rest := by
  induction text generalizing opened with
  | nil => exact absurd rfl hne
  | cons c text ih =>
    obtain ⟨⟨hcomma, hopen⟩, htext⟩ := List.forall_mem_cons.mp h
    rw [List.cons_append, dropVoids, if_neg (by simp [hcomma])]
    have hfalse : (c == '(') = false := by simpa using hopen
    rw [hfalse]
    by_cases hnil : text = []
    · simp [hnil]
    · rw [ih hnil htext, List.cons_append]

/-- A text that leaves the spelling of a type, whatever stands around it. It does not begin like the
end of a void, so that a comma in front of it stays. -/
structure Tidies (core : List Char) (t : AbiType) : Prop where
  begins : ∃ c rest, core = c :: rest ∧ c ≠ ',' ∧ c ≠ ')'
  spelled : ∀ opened more, dropVoids opened (core ++ more) = t.spell ++ dropVoids false more

theorem core_trim (text : List Char) : core (Text.trim text) = core text := by
  rw [core, core, Text.squeeze_trim]

theorem core_of_isAlphanum {text : List Char} (h : ∀ c ∈ text, c.isAlphanum = true) :
    core text = inFull text := by
  rw [core, Text.squeeze_unbroken fun c hc => Text.isBlank_of_isAlphanum (h c hc), expand_word h,
    List.nil_append]

/-- Without a plus sign, a word or a numeral is made of letters and digits. -/
theorem isAlphanum_of_plainNumerals {text : List Char} (hp : Text.PlainNumerals text)
    (h : ∀ c ∈ text, c.isAlphanum = true ∨ c = '+') : ∀ c ∈ text, c.isAlphanum = true := by
  intro c hc
  refine (h c hc).resolve_right ?_
  rintro rfl
  exact hp.1 hc

theorem inFull_numbered {start digits : List Char} (hs : start = ['u', 'i', 'n', 't'] ∨
    start = ['i', 'n', 't'] ∨ start = ['b', 'y', 't', 'e', 's']) (hd : digits ≠ []) :
    inFull (start ++ digits) = start ++ digits := by
  obtain ⟨c, digits, rfl⟩ := List.exists_cons_of_ne_nil hd
  rcases hs with rfl | rfl | rfl <;> rfl

theorem inFull_wholeWords : ∀ entry ∈ wholeWords, inFull entry.1 = entry.2.spell := by
  simp only [wholeWords, List.forall_mem_cons]
  exact ⟨rfl, rfl, rfl, rfl, rfl, rfl, rfl, by simp⟩

/-- A word in full is the spelling of the type that it names. -/
theorem inFull_of_ofWord? {word : List Char} {t : AbiType} (h : ofWord? word = some t)
    (hp : Text.PlainNumerals word) : inFull word = t.spell := by
  have hnumbered {start digits : List Char} {n : Nat} (hs : start = ['u', 'i', 'n', 't'] ∨
      start = ['i', 'n', 't'] ∨ start = ['b', 'y', 't', 'e', 's'])
      (hplain : Text.PlainNumerals (start ++ digits)) (hd : Text.readSize? digits = some n) :
      inFull (start ++ digits) = start ++ Text.decimal n := by
    have hletters : ∀ c ∈ start, c.isDigit = false := by
      rcases hs with rfl | rfl | rfl <;> simp [Char.isDigit]
    have hdecimal := Text.decimal_of_readSize? hd (hplain.behind hletters)
    have hne : digits ≠ [] := by
      rw [← hdecimal]
      exact Text.decimal_ne_nil n
    rw [hdecimal, inFull_numbered hs hne]
  cases names_of_ofWord? h with
  | whole hword => exact inFull_wholeWords _ hword
  | uint hbits => exact hnumbered (Or.inl rfl) hp (Option.filter_eq_some_iff.mp hbits).1
  | int hbits => exact hnumbered (Or.inr (Or.inl rfl)) hp (Option.filter_eq_some_iff.mp hbits).1
  | fixedBytes hsize =>
    exact hnumbered (Or.inr (Or.inr rfl)) hp (Option.filter_eq_some_iff.mp hsize).1

theorem isAlphanum_inFull {word : List Char} (h : ∀ c ∈ word, c.isAlphanum = true) :
    ∀ c ∈ inFull word, c.isAlphanum = true := by
  unfold inFull
  split
  · exact List.all_eq_true.mp (by rfl)
  · exact List.all_eq_true.mp (by rfl)
  · exact List.all_eq_true.mp (by rfl)
  · exact h

theorem ne_of_isAlphanum {c : Char} (h : c.isAlphanum = true) : c ≠ ',' ∧ c ≠ ')' ∧ c ≠ '(' := by
  refine ⟨?_, ?_, ?_⟩ <;> rintro rfl <;> exact absurd h (by decide)

theorem tidies_word {text : List Char} {t : AbiType} (h : ofWord? (Text.trim text) = some t)
    (hp : Text.PlainNumerals text) : Tidies (core text) t := by
  have hword := isAlphanum_of_plainNumerals hp.trim (plain_of_ofWord? h)
  have hfull := isAlphanum_inFull hword
  rw [← core_trim, core_of_isAlphanum hword]
  rw [inFull_of_ofWord? h hp.trim] at hfull ⊢
  constructor
  · obtain ⟨c, rest, hspell⟩ := List.exists_cons_of_ne_nil (spell_ne_nil t)
    obtain ⟨hcomma, hclose, _⟩ := ne_of_isAlphanum (hfull c (by simp [hspell]))
    exact ⟨c, rest, hspell, hcomma, hclose⟩
  · intro opened more
    apply dropVoids_append (spell_ne_nil t)
    intro c hc
    obtain ⟨hcomma, _, hopen⟩ := ne_of_isAlphanum (hfull c hc)
    exact ⟨hcomma, hopen⟩

/-- Brackets behind a type have no effect on what is dropped from it. -/
theorem Tidies.brackets {inner : List Char} {element t : AbiType} (h : Tidies inner element)
    {size : List Char} (hsize : ∀ c ∈ size, c.isAlphanum = true)
    (ht : t.spell = element.spell ++ '[' :: (size ++ [']'])) :
    Tidies (inner ++ '[' :: (size ++ [']'])) t := by
  constructor
  · obtain ⟨c, rest, rfl, hne⟩ := h.begins
    exact ⟨c, rest ++ '[' :: (size ++ [']']), rfl, hne⟩
  · intro opened more
    have hplain : ∀ c ∈ '[' :: (size ++ [']']), c ≠ ',' ∧ c ≠ '(' := by
      intro c hc
      simp only [List.mem_cons, List.mem_append, List.not_mem_nil, or_false] at hc
      rcases hc with rfl | hc | rfl
      · decide
      · obtain ⟨hcomma, _, hopen⟩ := ne_of_isAlphanum (hsize c hc)
        exact ⟨hcomma, hopen⟩
      · decide
    rw [List.append_assoc, h.spelled, dropVoids_append (by simp) hplain, ht, List.append_assoc]

theorem core_brackets {inner size : List Char} (hsize : ∀ c ∈ Text.trim size, c.isDigit = true) :
    core (inner ++ '[' :: (size ++ [']'])) = core inner ++ '[' :: (Text.trim size ++ [']']) := by
  have hplain : ∀ c ∈ Text.trim size, c.isAlphanum = true := by
    intro c hc
    simp [Char.isAlphanum, hsize c hc]
  have hfull : inFull (Text.trim size) = Text.trim size := by
    unfold inFull
    split
    case h_4 => rfl
    all_goals
      rename_i hword
      exact absurd (hsize _ (hword ▸ List.mem_cons_self)) (by decide)
  have hsqueeze : Text.squeeze size = Text.trim size := by
    rw [← Text.squeeze_trim]
    exact Text.squeeze_unbroken fun c hc => Text.isBlank_of_isAlphanum (hplain c hc)
  rw [core, core, Text.squeeze_append, Text.squeeze_cons (by decide), Text.squeeze_append, hsqueeze,
    Text.squeeze_cons (by decide), expand_append (by decide) (by decide),
    expand_append (by decide) (by decide), expand_word hplain, List.nil_append, hfull]
  rfl

theorem tidies_array {text inner size : List Char} {element t : AbiType}
    (htext : Text.trim text = inner ++ '[' :: (size ++ [']']))
    (hinner : Text.PlainNumerals inner → Tidies (core inner) element)
    (h : arrayOf element (Text.trim size) (Text.trim text) = .ok t)
    (hp : Text.PlainNumerals text) : Tidies (core text) t := by
  have hplain := hp.trim
  rw [htext] at hplain
  obtain ⟨hbefore, hrest⟩ := Text.plainNumerals_append (by decide) hplain
  have hsize := (hrest.before (List.forall_mem_singleton.mpr (by decide))).trim
  rw [← core_trim, htext]
  unfold arrayOf at h
  split at h
  · rename_i hgap
    cases h
    rw [core_brackets (by simp [hgap]), hgap]
    exact (hinner hbefore).brackets (by simp) (by simp [spell])
  · split at h
    · cases h
    · rename_i length hlength
      obtain ⟨_, h⟩ := ite_eq_ok.mp h
      cases h
      have hdecimal := Text.decimal_of_readSize? hlength hsize
      have hdigits : ∀ c ∈ Text.trim size, c.isDigit = true := by
        rw [← hdecimal]
        exact fun c hc => Text.isDigit_of_mem_decimal hc
      rw [core_brackets hdigits]
      refine (hinner hbefore).brackets (fun c hc => ?_) (by simp [spell, hdecimal])
      simp [Char.isAlphanum, hdigits c hc]

theorem core_of_blank {part : List Char} (h : Text.trim part = []) : core part = [] := by
  rw [← core_trim, h]
  rfl

theorem dropVoids_void {opened : Bool} {text : List Char}
    (h : opened = true ∨ text.head? = some ',' ∨ text.head? = some ')') :
    dropVoids opened (',' :: text) = dropVoids opened text := by
  rw [dropVoids, if_pos ⟨rfl, h⟩]

theorem head?_members (texts : List (List Char)) (more : List Char) :
    (texts.flatMap (',' :: core ·) ++ ')' :: more).head? = some ',' ∨
      (texts.flatMap (',' :: core ·) ++ ')' :: more).head? = some ')' := by
  cases texts with
  | nil => exact Or.inr rfl
  | cons part texts => exact Or.inl rfl

/-- Behind a member, the members that follow are left, and the voids between them are not. -/
theorem dropVoids_more {texts : List (List Char)} {members : List AbiType}
    (h : List.Forall₂ (fun part t => Tidies (core part) t)
      (texts.filter fun part => Text.trim part ≠ []) members) (more : List Char) :
    dropVoids false (texts.flatMap (',' :: core ·) ++ ')' :: more) =
      members.flatMap (',' :: ·.spell) ++ ')' :: dropVoids false more := by
  induction texts generalizing members with
  | nil =>
    cases h
    simp [dropVoids]
  | cons part texts ih =>
    rw [List.flatMap_cons, List.append_assoc, List.cons_append]
    by_cases hblank : Text.trim part = []
    -- nothing is left of a blank part, so that its comma stands before the next or before the end
    · rw [List.filter_cons_of_neg (by simpa using hblank)] at h
      rw [core_of_blank hblank, List.nil_append, dropVoids_void (Or.inr (head?_members ..)), ih h]
    · rw [List.filter_cons_of_pos (by simpa using hblank)] at h
      cases h with
      | cons hpart hrest =>
        obtain ⟨c, rest, hcore, hcomma, hclose⟩ := hpart.begins
        have hkept : dropVoids false (',' :: (core part ++ (texts.flatMap (',' :: core ·) ++
            ')' :: more))) = ',' :: dropVoids false (core part ++ (texts.flatMap (',' :: core ·) ++
              ')' :: more)) := by
          rw [dropVoids, if_neg]
          · rfl
          · simp [hcore, hcomma, hclose]
        rw [hkept, hpart.spelled, ih hrest, List.flatMap_cons, List.append_assoc, List.cons_append]

/-- Of the parts of a tuple, the members are left. -/
theorem dropVoids_members {texts : List (List Char)} {members : List AbiType} (hne : members ≠ [])
    (h : List.Forall₂ (fun part t => Tidies (core part) t)
      (texts.filter fun part => Text.trim part ≠ []) members) (more : List Char) :
    dropVoids true ([','].intercalate (texts.map core) ++ ')' :: more) =
      [','].intercalate (members.map spell) ++ ')' :: dropVoids false more := by
  induction texts generalizing members with
  | nil =>
    cases h
    exact absurd rfl hne
  | cons part texts ih =>
    rw [List.map_cons, Text.intercalate_cons, List.flatMap_map]
    by_cases hblank : Text.trim part = []
    -- the comma behind a blank part follows the parenthesis, as if the list began there
    · rw [List.filter_cons_of_neg (by simpa using hblank)] at h
      have hrest := ih hne h
      cases texts with
      | nil =>
        cases h
        exact absurd rfl hne
      | cons second texts =>
        rw [List.map_cons, Text.intercalate_cons, List.flatMap_map] at hrest
        rw [core_of_blank hblank, List.nil_append, List.flatMap_cons, List.cons_append,
          List.cons_append, dropVoids_void (Or.inl rfl), hrest]
    · rw [List.filter_cons_of_pos (by simpa using hblank)] at h
      cases h with
      | cons hpart hrest =>
        rw [List.append_assoc, hpart.spelled, dropVoids_more hrest, List.map_cons,
          Text.intercalate_cons, List.flatMap_map, List.append_assoc]

theorem core_parenthesized {opening : List Char}
    (hopening : opening = [] ∨ opening = ['t', 'u', 'p', 'l', 'e']) {texts : List (List Char)}
    (hne : texts ≠ []) : core (opening ++ '(' :: ([','].intercalate texts ++ [')'])) =
      '(' :: ([','].intercalate (texts.map core) ++ [')']) := by
  obtain ⟨first, texts, rfl⟩ := List.exists_cons_of_ne_nil hne
  have hopen (rest : List Char) : core (opening ++ '(' :: rest) = '(' :: core rest := by
    rcases hopening with rfl | rfl
    · rw [core, List.nil_append, Text.squeeze_cons (by decide)]
      rfl
    · rw [core, Text.squeeze_append, Text.squeeze_cons (by decide)]
      rfl
  rw [hopen, Text.intercalate_cons, core, Text.squeeze_append, Text.squeeze_append,
    Text.squeeze_flatMap, List.append_assoc, List.map_cons, Text.intercalate_cons, List.flatMap_map,
    List.append_assoc]
  have hlist := expand_list (Text.squeeze first) (texts.map Text.squeeze) []
  rw [List.flatMap_map, List.flatMap_map] at hlist
  exact congrArg _ hlist

theorem tidies_tuple {text opening body : List Char} {members : List AbiType}
    (hopening : opening = [] ∨ opening = ['t', 'u', 'p', 'l', 'e'])
    (htext : Text.trim text = opening ++ '(' :: (body ++ [')'])) (hne : members ≠ [])
    (h : List.Forall₂ (fun part t => Text.PlainNumerals part → Tidies (core part) t)
      (parts body) members) (hp : Text.PlainNumerals text) :
    Tidies (core text) (.tuple members) := by
  have hbody := Text.intercalate_splitOutside 0 body
  have hplain : ∀ part ∈ parts body, Text.PlainNumerals part := by
    have hinner := hp.trim
    rw [htext] at hinner
    have hlist := (Text.plainNumerals_append (by decide) hinner).2.before
      (List.forall_mem_singleton.mpr (by decide))
    rw [← hbody] at hlist
    exact fun part hpart => hlist.of_mem_intercalate part (List.mem_of_mem_filter hpart)
  have hmembers : List.Forall₂ (fun part t => Tidies (core part) t) (parts body) members :=
    ((List.forall₂_and_left _ _).mpr ⟨hplain, h⟩).imp fun _ _ ⟨hpart, hm⟩ => hm hpart
  have hcore : core text =
      '(' :: ([','].intercalate ((Text.splitTopLevel body).map core) ++ [')']) := by
    have hparts := core_parenthesized hopening (Text.splitOutside_ne_nil 0 body)
    rwa [hbody, ← htext, core_trim] at hparts
  rw [hcore]
  refine ⟨⟨_, _, rfl, by decide, by decide⟩, ?_⟩
  intro opened more
  rw [spell_tuple, List.cons_append, dropVoids, if_neg (by simp)]
  have hdrop := dropVoids_members hne hmembers more
  simp only [List.append_assoc, List.cons_append, List.nil_append] at hdrop ⊢
  exact congrArg _ hdrop

theorem tidies_of_readWithin {fuel : Nat} {text : List Char} {t : AbiType}
    (h : readWithin fuel text = .ok t) (hp : Text.PlainNumerals text) : Tidies (core text) t := by
  revert hp
  refine readWithin_induction
    (motive := fun text t => Text.PlainNumerals text → Tidies (core text) t) ?word ?array ?tuple h
  case word => exact fun text t h hp => tidies_word h hp
  case array => exact fun text inner size element t htext hinner h hp =>
    tidies_array htext hinner h hp
  case tuple => exact fun text opening body members hopening htext hne hmembers hp =>
    tidies_tuple hopening htext hne hmembers hp

/-- The text of a type with plain numerals is its spelling, once it is tidied. -/
theorem display_eq_tidied {text : String} {t : AbiType} (h : ofText text = .ok t)
    (hp : Text.PlainNumerals text.toList) : tidied text = t.display := by
  have hspelled := (tidies_of_readWithin h hp).spelled false []
  rw [List.append_nil, dropVoids, List.append_nil] at hspelled
  rw [tidied, display, hspelled]

theorem display_eq_tidied_nested :
    ofText " tuple( uint, (byte[ 3 ],,bool[0]) ,)[]" = .ok (.array (.tuple [.uint 256,
      .tuple [.fixedArray (.fixedBytes 1) 3, .fixedArray .bool 0]])) ∧
    tidied " tuple( uint, (byte[ 3 ],,bool[0]) ,)[]" = "(uint256,(bytes1[3],bool[0]))[]" := by
  have hread : ofText " tuple( uint, (byte[ 3 ],,bool[0]) ,)[]" = .ok (.array (.tuple [.uint 256,
      .tuple [.fixedArray (.fixedBytes 1) 3, .fixedArray .bool 0]])) := by rfl
  exact ⟨hread, display_eq_tidied hread (by decide)⟩

/-- Members of tuples in which nothing stands are passed over, and a sign or zeros at the beginning
of a numeral are too. -/
theorem ofText_of_voids :
    ofText "(address,,bool)" = .ok (.tuple [.address, .bool]) ∧
    String.ofList (core "(address,,bool)".toList) = "(address,,bool)" ∧
    (AbiType.tuple [.address, .bool]).display = "(address,bool)" ∧
    ofText "uint256[+03]" = .ok (.fixedArray (.uint 256) 3) ∧
    String.ofList (core "uint256[+03]".toList) = "uint256[+03]" ∧
    (AbiType.fixedArray (.uint 256) 3).display = "uint256[3]" := by
  exact ⟨by rfl, by decide, by decide, by rfl, by decide, by decide⟩

end Abi.AbiType
end EvmInspect
