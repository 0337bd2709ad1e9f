import EvmInspect.Text.Brackets

namespace EvmInspect.Text

@[simp]
theorem opened?_nil (depth : Nat) : opened? depth [] = some depth := by
  cases depth <;> rfl

@[simp]
theorem opened?_open (depth : Nat) (text : List Char) :
    opened? depth ('(' :: text) = opened? (depth + 1) text := by
  cases depth <;> simp [opened?]

@[simp]
theorem opened?_close_zero (text : List Char) : opened? 0 (')' :: text) = none := by
  simp [opened?]

@[simp]
theorem opened?_close (depth : Nat) (text : List Char) :
    opened? (depth + 1) (')' :: text) = opened? depth text := by
  simp [opened?]

theorem opened?_plain {c : Char} (ho : c ≠ '(') (hc : c ≠ ')') (depth : Nat) (text : List Char) :
    opened? depth (c :: text) = opened? depth text := by
  cases depth <;> simp [opened?, ho, hc]

theorem opened?_append (depth : Nat) (text rest : List Char) :
    opened? depth (text ++ rest) = (opened? depth text).bind fun inner => opened? inner rest := by
  induction text generalizing depth with
  | nil => simp
  | cons c text ih =>
    by_cases ho : c = '('
    · simp [ho, ih]
    · by_cases hc : c = ')'
      · cases depth <;> simp [hc, ih]
      · simp [opened?_plain ho hc, ih]

theorem opened?_of_plain {text : List Char} (h : ∀ c ∈ text, c ≠ '(' ∧ c ≠ ')') (depth : Nat) :
    opened? depth text = some depth := by
  induction text with
  | nil => simp
  | cons c text ih =>
    obtain ⟨ho, hc⟩ := h c List.mem_cons_self
    rw [opened?_plain ho hc]
    exact ih fun c hc => h c (List.mem_cons_of_mem _ hc)

theorem Balanced.append {text rest : List Char} (ht : Balanced text) (hr : Balanced rest) :
    Balanced (text ++ rest) := by
  rw [Balanced, opened?_append, ht]
  exact hr

/-- The parenthesis that closes a list is looked for behind what closes itself. -/
theorem closing?_append {depth inner : Nat} {text : List Char} (h : opened? depth text = some inner)
    (rest : List Char) : closing? depth (text ++ rest) =
      (closing? inner rest).map fun found => (text ++ found.1, found.2) := by
  induction text generalizing depth with
  | nil =>
    rw [opened?_nil] at h
    cases h
    simp
  | cons c text ih =>
    by_cases ho : c = '('
    · rw [ho, opened?_open] at h
      simp [closing?, ho, ih h, Function.comp_def]
    · by_cases hc : c = ')'
      · cases depth with
        | zero => simp [hc] at h
        | succ depth =>
          rw [hc, opened?_close] at h
          simp [closing?, hc, ih h, Function.comp_def]
      · rw [opened?_plain ho hc] at h
        simp [closing?, ho, hc, ih h, Function.comp_def]

/-- A list that closes what it opens ends at the next parenthesis. -/
theorem listBody_append {body : List Char} (h : Balanced body) (rest : List Char) :
    listBody (body ++ ')' :: rest) = (body, rest) := by
  rw [listBody, closing?_append h]
  simp [closing?]

/-- A character at which the text is not cut begins the first part of what follows, and what follows
is read at one depth, whatever it is. -/
theorem splitOutside_cons {depth : Nat} {c : Char} (h : ¬ (c = ',' ∧ depth = 0)) {text : List Char}
    {inner : Nat} (ho : opened? depth (c :: text) = some inner) :
    ∃ after, (∀ more, opened? depth (c :: more) = opened? after more) ∧
      ∀ more part parts, splitOutside after more = part :: parts →
        splitOutside depth (c :: more) = (c :: part) :: parts := by
  by_cases hopen : c = '('
  · subst hopen
    exact ⟨depth + 1, opened?_open depth, fun _ _ _ hs => by simp [splitOutside, hs]⟩
  · by_cases hclose : c = ')'
    · subst hclose
      cases depth with
      | zero => simp at ho
      | succ depth => exact ⟨depth, opened?_close depth, fun _ _ _ hs => by simp [splitOutside, hs]⟩
    · exact ⟨depth, opened?_plain hopen hclose depth,
        fun _ _ _ hs => by simp [splitOutside, h, hopen, hclose, hs]⟩

/-- Behind a text that is read through without a cut, the parts of the rest follow. The first one
begins with that text. -/
theorem splitOutside_append {depth inner : Nat} {text : List Char}
    (ho : opened? depth text = some inner)
    (hc : ∀ n < text.length, text[n]? = some ',' → opened? depth (text.take n) ≠ some 0)
    (rest : List Char) : ∃ part parts, splitOutside inner rest = part :: parts ∧
      splitOutside depth (text ++ rest) = (text ++ part) :: parts := by
  induction text generalizing depth with
  | nil =>
    rw [opened?_nil] at ho
    cases ho
    obtain ⟨part, parts, h⟩ := List.exists_cons_of_ne_nil (splitOutside_ne_nil inner rest)
    exact ⟨part, parts, h, h⟩
  | cons c text ih =>
    have hfirst : ¬ (c = ',' ∧ depth = 0) := by
      rintro ⟨rfl, rfl⟩
      exact hc 0 (by simp) rfl (opened?_nil 0)
    obtain ⟨after, hafter, hcut⟩ := splitOutside_cons hfirst ho
    have hrest : ∀ n < text.length, text[n]? = some ',' → opened? after (text.take n) ≠ some 0 := by
      intro n hn hcomma
      rw [← hafter]
      exact hc (n + 1) (by simpa using hn) (by simpa using hcomma)
    obtain ⟨part, parts, hr, hs⟩ := ih (hafter text ▸ ho) hrest
    exact ⟨part, parts, hr, hcut _ _ _ hs⟩

structure Entry (text : List Char) : Prop where
  balanced : Balanced text
  commas : CommasInside text

theorem Entry.append {text rest : List Char} (ht : Entry text) (hr : Entry rest) :
    Entry (text ++ rest) := by
  refine ⟨ht.balanced.append hr.balanced, ?_⟩
  intro n hn hcomma
  by_cases hlt : n < text.length
  · rw [List.take_append_of_le_length (Nat.le_of_lt hlt)]
    rw [List.getElem?_append_left hlt] at hcomma
    exact ht.commas n hlt hcomma
  · have hle : text.length ≤ n := Nat.le_of_not_lt hlt
    rw [List.getElem?_append_right hle] at hcomma
    rw [List.take_append, List.take_of_length_le hle, opened?_append, ht.balanced]
    rw [List.length_append] at hn
    exact hr.commas (n - text.length) (by omega) hcomma

theorem entry_of_plain {text : List Char} (h : ∀ c ∈ text, c ≠ '(' ∧ c ≠ ')' ∧ c ≠ ',') :
    Entry text := by
  constructor
  · exact opened?_of_plain (fun c hc => ⟨(h c hc).1, (h c hc).2.1⟩) 0
  · intro n _ hcomma
    exact absurd rfl (h ',' (List.mem_of_getElem? hcomma)).2.2

theorem Entry.splitTopLevel {text : List Char} (h : Entry text) :
    splitTopLevel text = [text] := by
  obtain ⟨part, parts, hr, hs⟩ := splitOutside_append h.balanced h.commas []
  obtain ⟨rfl, rfl⟩ := List.cons.inj hr
  simpa [Text.splitTopLevel] using hs

theorem splitOutside_comma (text : List Char) :
    splitOutside 0 (',' :: text) = [] :: splitOutside 0 text := by
  simp [splitOutside]

theorem Entry.splitTopLevel_append {text : List Char} (h : Entry text) (rest : List Char) :
    Text.splitTopLevel (text ++ ',' :: rest) = text :: Text.splitTopLevel rest := by
  obtain ⟨part, parts, hr, hs⟩ := splitOutside_append h.balanced h.commas (',' :: rest)
  obtain ⟨rfl, rfl⟩ := List.cons.inj ((splitOutside_comma rest).symm.trans hr)
  rw [Text.splitTopLevel, hs, List.append_nil, Text.splitTopLevel]

/-- Entries with commas between them are the parts of the list. -/
theorem splitTopLevel_intercalate {entries : List (List Char)} (h : ∀ e ∈ entries, Entry e)
    (hne : entries ≠ []) : splitTopLevel ([','].intercalate entries) = entries := by
  induction entries with
  | nil => exact absurd rfl hne
  | cons entry entries ih =>
    have hentry := h entry List.mem_cons_self
    cases entries with
    | nil => rw [List.intercalate_singleton, hentry.splitTopLevel]
    | cons second entries =>
      rw [List.intercalate_cons_cons, List.append_assoc, List.singleton_append,
        hentry.splitTopLevel_append, ih (fun e he => h e (List.mem_cons_of_mem _ he)) (by simp)]

theorem balanced_intercalate {entries : List (List Char)} (h : ∀ e ∈ entries, Entry e) :
    Balanced ([','].intercalate entries) := by
  induction entries with
  | nil => exact opened?_nil 0
  | cons entry entries ih =>
    have hentry := (h entry List.mem_cons_self).balanced
    cases entries with
    | nil => rwa [List.intercalate_singleton]
    | cons second entries =>
      rw [List.intercalate_cons_cons]
      have hcomma : Balanced [','] := by decide
      exact (hentry.append hcomma).append (ih fun e he => h e (List.mem_cons_of_mem _ he))

/-- Blanks behind each comma belong to the entries that follow. -/
theorem intercalate_gap (gap entry : List Char) (entries : List (List Char)) :
    (',' :: gap).intercalate (entry :: entries) =
      [','].intercalate (entry :: entries.map (gap ++ ·)) := by
  induction entries generalizing entry with
  | nil => rfl
  | cons second entries ih =>
    rw [List.intercalate_cons_cons, ih, List.map_cons, List.intercalate_cons_cons]
    cases entries with
    | nil => simp
    | cons third entries => simp [List.intercalate_cons_cons]

/-- One more parenthesis that is open from the start stays open. -/
theorem opened?_succ {depth inner : Nat} {text : List Char} (h : opened? depth text = some inner) :
    opened? (depth + 1) text = some (inner + 1) := by
  induction text generalizing depth with
  | nil =>
    rw [opened?_nil] at h
    cases h
    exact opened?_nil _
  | cons c text ih =>
    by_cases ho : c = '('
    · subst ho
      rw [opened?_open] at h ⊢
      exact ih h
    · by_cases hc : c = ')'
      · subst hc
        cases depth with
        | zero => simp at h
        | succ depth =>
          rw [opened?_close] at h ⊢
          exact ih h
      · rw [opened?_plain ho hc] at h ⊢
        exact ih h

/-- Parentheses around a text that closes its own keep its commas inside. -/
theorem Balanced.entry {body : List Char} (h : Balanced body) : Entry ('(' :: (body ++ [')'])) := by
  have hinner : opened? 1 body = some 1 := opened?_succ h
  constructor
  · rw [Balanced, opened?_open, opened?_append, hinner]
    rfl
  · intro n _ hcomma
    cases n with
    | zero => simp at hcomma
    | succ n =>
      have hn : n < body.length := by
        refine Nat.lt_of_not_le fun hle => ?_
        rw [List.getElem?_cons_succ, List.getElem?_append_right hle] at hcomma
        have hmem := List.mem_of_getElem? hcomma
        simp at hmem
      rw [List.take_succ_cons, opened?_open, List.take_append_of_le_length (Nat.le_of_lt hn)]
      have hsplit : (opened? 0 (body.take n)).bind (fun inner => opened? inner (body.drop n)) =
          some 0 := by
        rw [← opened?_append, List.take_append_drop]
        exact h
      obtain ⟨inner, hopen, _⟩ := Option.bind_eq_some_iff.mp hsplit
      rw [opened?_succ hopen]
      simp

/-- A text with an opening parenthesis somewhere before each of its commas. -/
def Guarded (text : List Char) : Prop :=
  ∀ before rest, text = before ++ ',' :: rest → '(' ∈ before

theorem Guarded.inside {start text rest : List Char} (hs : '(' ∉ start)
    (h : Guarded (start ++ (text ++ rest))) : Guarded text := by
  intro before behind htext
  have hopen := h (start ++ before) (behind ++ rest) (by simp [htext])
  exact (List.mem_append.mp hopen).resolve_left hs

/-- Where a text is cut, what lies before a comma within a part is in parentheses. -/
theorem guarded_splitOutside {depth : Nat} {text part : List Char} {parts : List (List Char)}
    (h : splitOutside depth text = part :: parts) :
    (depth = 0 → Guarded part) ∧ ∀ p ∈ parts, Guarded p := by
  have hnil : Guarded [] := fun before rest hn => by simp at hn
  induction text generalizing depth part parts with
  | nil =>
    cases h
    exact ⟨fun _ => hnil, by simp⟩
  | cons c text ih =>
    unfold splitOutside at h
    split at h
    · obtain ⟨rfl, rfl⟩ := List.cons.inj h
      obtain ⟨first, rest, hsplit⟩ := List.exists_cons_of_ne_nil (splitOutside_ne_nil 0 text)
      obtain ⟨hfirst, hrest⟩ := ih hsplit
      refine ⟨fun _ => hnil, ?_⟩
      rw [hsplit]
      exact List.forall_mem_cons.mpr ⟨hfirst rfl, hrest⟩
    · rename_i hcut
      dsimp only at h
      split at h
      · rename_i first rest hsplit
        obtain ⟨rfl, rfl⟩ := List.cons.inj h
        obtain ⟨hfirst, hrest⟩ := ih hsplit
        refine ⟨?_, hrest⟩
        rintro rfl before behind heq
        cases before with
        | nil => exact absurd ⟨(List.cons.inj heq).1, rfl⟩ hcut
        | cons d before =>
          obtain ⟨rfl, htail⟩ := List.cons.inj heq
          by_cases hopen : c = '('
          · simp [hopen]
          · have hdepth : (if c = '(' then 0 + 1 else if c = ')' then 0 - 1 else 0) = 0 := by
              rw [if_neg hopen, Nat.zero_sub, ite_self]
            exact List.mem_cons_of_mem _ (hfirst hdepth before behind htail)
      · rename_i hsplit
        exact absurd hsplit (splitOutside_ne_nil _ text)

theorem guarded_of_mem_splitTopLevel {text part : List Char} (h : part ∈ splitTopLevel text) :
    Guarded part := by
  obtain ⟨first, rest, hsplit⟩ := List.exists_cons_of_ne_nil (splitOutside_ne_nil 0 text)
  obtain ⟨hfirst, hrest⟩ := guarded_splitOutside hsplit
  rw [splitTopLevel, hsplit] at h
  rcases List.mem_cons.mp h with rfl | h
  · exact hfirst rfl
  · exact hrest part h

/-- A list is closed by a text that closes more than is open. -/
theorem exists_closing?_of_opened? {depth : Nat} {text : List Char}
    (h : opened? depth text = none) : ∃ body rest, closing? depth text = some (body, rest) := by
  induction text generalizing depth with
  | nil => simp at h
  | cons c text ih =>
    by_cases ho : c = '('
    · rw [ho, opened?_open] at h
      obtain ⟨body, rest, hrest⟩ := ih h
      exact ⟨c :: body, rest, by simp [closing?, ho, hrest]⟩
    · by_cases hc : c = ')'
      · cases depth with
        | zero => exact ⟨[], text, by simp [closing?, hc]⟩
        | succ depth =>
          rw [hc, opened?_close] at h
          obtain ⟨body, rest, hrest⟩ := ih h
          exact ⟨c :: body, rest, by simp [closing?, hc, hrest]⟩
      · rw [opened?_plain ho hc] at h
        obtain ⟨body, rest, hrest⟩ := ih h
        exact ⟨c :: body, rest, by simp [closing?, ho, hc, hrest]⟩

/-- A list is closed by a text that closes all that is open, the list itself too. -/
theorem exists_closing? {depth : Nat} {text : List Char} (h : opened? (depth + 1) text = some 0) :
    ∃ body rest, closing? depth text = some (body, rest) := by
  apply exists_closing?_of_opened?
  cases hopen : opened? depth text with
  | none => rfl
  | some inner =>
    rw [opened?_succ hopen] at h
    cases h

/-- More parentheses that are open from the start stay open. -/
theorem opened?_add {depth inner : Nat} {text : List Char} (h : opened? depth text = some inner)
    (more : Nat) : opened? (depth + more) text = some (inner + more) := by
  induction more with
  | zero => exact h
  | succ more ih => exact opened?_succ ih

theorem CommasInside.inside {start text rest : List Char} (hs : Balanced start)
    (h : CommasInside (start ++ (text ++ rest))) : CommasInside text := by
  intro n hn hcomma
  have hcut := h (start.length + n)
  rw [List.getElem?_append_right (by omega), List.getElem?_append_left (by omega),
    List.take_append, List.take_of_length_le (by omega), opened?_append, hs, Option.bind_some,
    Nat.add_sub_cancel_left, List.take_append_of_le_length (by omega)] at hcut
  exact hcut (by simp; omega) hcomma

/-- What stands between texts counts for nothing else. -/
theorem count_intercalate {sep : List Char} {mark : Char} (h : mark ∉ sep)
    (texts : List (List Char)) : (sep.intercalate texts).count mark = texts.flatten.count mark := by
  induction texts with
  | nil => rfl
  | cons text texts ih =>
    cases texts with
    | nil => simp
    | cons second texts =>
      rw [List.intercalate_cons_cons, List.count_append, List.count_append, ih,
        List.count_eq_zero.mpr h]
      simp only [List.flatten_cons, List.count_append, Nat.add_zero]

theorem infix_of_mem_intercalate {sep text : List Char} {texts : List (List Char)}
    (h : text ∈ texts) : text <:+: sep.intercalate texts := by
  induction texts with
  | nil => cases h
  | cons first texts ih =>
    cases texts with
    | nil =>
      obtain rfl := List.mem_singleton.mp h
      exact ⟨[], [], by simp⟩
    | cons second texts =>
      rw [List.intercalate_cons_cons]
      rcases List.mem_cons.mp h with rfl | h
      · exact ⟨[], sep ++ sep.intercalate (second :: texts), by simp⟩
      · exact (ih h).trans (List.suffix_append _ _).isInfix

theorem infix_of_mem_splitTopLevel {text part : List Char} (h : part ∈ splitTopLevel text) :
    part <:+: text := by
  have hinfix : part <:+: [','].intercalate (splitTopLevel text) := infix_of_mem_intercalate h
  rwa [splitTopLevel, intercalate_splitOutside] at hinfix

/-- Where a text that closes what is open is cut, the parts close what they open. -/
theorem entries_splitOutside {depth : Nat} {text part : List Char} {parts : List (List Char)}
    (ho : opened? depth text = some 0) (h : splitOutside depth text = part :: parts) :
    opened? depth part = some 0 ∧
      (∀ n < part.length, part[n]? = some ',' → opened? depth (part.take n) ≠ some 0) ∧
      ∀ p ∈ parts, Entry p := by
  induction text generalizing depth part parts with
  | nil =>
    cases h
    exact ⟨ho, by simp, by simp⟩
  | cons c text ih =>
    by_cases hcut : c = ',' ∧ depth = 0
    · obtain ⟨rfl, rfl⟩ := hcut
      rw [opened?_plain (by decide) (by decide)] at ho
      obtain ⟨first, rest, hsplit⟩ := List.exists_cons_of_ne_nil (splitOutside_ne_nil 0 text)
      have hcons : splitOutside 0 (',' :: text) = [] :: first :: rest := by
        simp [splitOutside, hsplit]
      obtain ⟨rfl, rfl⟩ := List.cons.inj (hcons.symm.trans h)
      obtain ⟨hfirst, hcommas, hrest⟩ := ih ho hsplit
      exact ⟨opened?_nil 0, by simp, List.forall_mem_cons.mpr ⟨⟨hfirst, hcommas⟩, hrest⟩⟩
    · obtain ⟨after, hafter, hcons⟩ := splitOutside_cons hcut ho
      obtain ⟨first, rest, hsplit⟩ := List.exists_cons_of_ne_nil (splitOutside_ne_nil after text)
      obtain ⟨rfl, rfl⟩ := List.cons.inj ((hcons text first rest hsplit).symm.trans h)
      obtain ⟨hfirst, hcommas, hrest⟩ := ih (hafter text ▸ ho) hsplit
      refine ⟨(hafter first).trans hfirst, ?_, hrest⟩
      intro n hn hcomma
      cases n with
      | zero =>
        intro hzero
        rw [List.take_zero, opened?_nil] at hzero
        exact hcut ⟨Option.some.inj hcomma, Option.some.inj hzero⟩
      | succ n =>
        rw [List.take_succ_cons, hafter]
        exact hcommas n (by simpa using hn) (by simpa using hcomma)

/-- The parts of a text that closes what it opens can stand in a list. -/
theorem entry_of_mem_splitTopLevel {text part : List Char} (h : Balanced text)
    (hp : part ∈ splitTopLevel text) : Entry part := by
  obtain ⟨first, rest, hsplit⟩ := List.exists_cons_of_ne_nil (splitOutside_ne_nil 0 text)
  obtain ⟨hfirst, hcommas, hrest⟩ := entries_splitOutside h hsplit
  rw [splitTopLevel, hsplit] at hp
  rcases List.mem_cons.mp hp with rfl | hp
  · exact ⟨hfirst, hcommas⟩
  · exact hrest part hp

end EvmInspect.Text
