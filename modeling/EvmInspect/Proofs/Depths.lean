import EvmInspect.Text.Brackets.Lemmas
import Mathlib.Data.Nat.Find

namespace EvmInspect.Text

/-- How many parentheses more a text opens than it closes. -/
def surplus (text : List Char) : Int :=
  text.count '(' - text.count ')'

structure Matched (text : List Char) : Prop where
  above : ∀ before, before <+: text → 0 ≤ surplus before
  level : surplus text = 0

/-- A parenthesis that closes more than is open. -/
def ClosesAt (text : List Char) (n : Nat) : Prop :=
  text[n]? = some ')' ∧ surplus (text.take n) = 0

/-- The depth behind a character when the end of a list is looked for. There is none behind the end.
Nothing in it keeps the depth from falling below zero. -/
def searchStep (depth : Int) (c : Char) : Option Int :=
  if c = '(' then some (depth + 1)
  else if c = ')' then if depth = 0 then none else some (depth - 1)
  else some depth

def searchDepth? (text : List Char) : Option Int :=
  text.foldlM searchStep 0

/-- The depth behind a character when a list is taken apart. It stays at zero when there is nothing
to close. -/
def splitStep (depth : Nat) (c : Char) : Nat :=
  if c = '(' then depth + 1 else if c = ')' then depth - 1 else depth

def splitDepth (text : List Char) : Nat :=
  text.foldl splitStep 0

def SearchesOn (depth : Nat) (before after : List Char) : Prop :=
  closing? 0 (before ++ after) =
    (closing? depth after).map fun found => (before ++ found.1, found.2)

/-- The splitting goes on at a depth: the parts at that depth follow those of the text before, the
first one of them as the rest of the last one. -/
def SplitsOn (depth : Nat) (before after : List Char) : Prop :=
  ∃ done last part parts, splitTopLevel before = done ++ [last] ∧
    splitOutside depth after = part :: parts ∧
    splitTopLevel (before ++ after) = done ++ (last ++ part) :: parts

/-- Where both readers are behind a text. The search is at a depth, and that is never below zero, or
else the list has ended; the splitting is at a depth too. -/
structure ReadOn (before after : List Char) : Prop where
  search :
    (∃ depth : Nat, searchDepth? before = some (depth : Int) ∧ SearchesOn depth before after) ∨
    searchDepth? before = none ∧ ∃ body rest, closing? 0 before = some (body, rest)
  split : SplitsOn (splitDepth before) before after

/-- A list that is closed, with what it holds and what follows it, read at the same depths by both
readers. -/
structure ReadAlike (text body rest : List Char) : Prop where
  joined : text = body ++ ')' :: rest
  first : ∀ n < body.length, ¬ ClosesAt text n
  matched : Matched body
  depths : ∀ before, before <+: body →
    searchDepth? before = some (surplus before) ∧ (splitDepth before : Int) = surplus before
  unsaturated : ∀ before, before ++ [')'] <+: body → 0 < splitDepth before
  parts : ∀ part ∈ splitTopLevel body,
    Matched part ∧ ∀ before, before ++ [','] <+: part → 0 < surplus before

instance (text : List Char) (n : Nat) : Decidable (ClosesAt text n) :=
  inferInstanceAs (Decidable (_ ∧ _))

@[simp]
theorem surplus_nil : surplus [] = 0 :=
  rfl

theorem surplus_append (text rest : List Char) :
    surplus (text ++ rest) = surplus text + surplus rest := by
  simp only [surplus, List.count_append]
  omega

theorem surplus_open (text : List Char) : surplus ('(' :: text) = surplus text + 1 := by
  simp [surplus]
  omega

theorem surplus_close (text : List Char) : surplus (')' :: text) = surplus text - 1 := by
  simp [surplus]
  omega

theorem surplus_plain {c : Char} (ho : c ≠ '(') (hc : c ≠ ')') (text : List Char) :
    surplus (c :: text) = surplus text := by
  simp [surplus, ho, hc]

theorem forall_prefix_cons {motive : List Char → Prop} {c : Char} {text : List Char} :
    (∀ before, before <+: c :: text → motive before) ↔
      motive [] ∧ ∀ before, before <+: text → motive (c :: before) := by
  constructor
  · intro h
    exact ⟨h [] List.nil_prefix, fun before hb => h _ (List.cons_prefix_cons.mpr ⟨rfl, hb⟩)⟩
  · rintro ⟨hnil, hcons⟩ before hb
    rcases List.prefix_cons_iff.mp hb with rfl | ⟨rest, rfl, hrest⟩
    · exact hnil
    · exact hcons rest hrest

/-- What is open behind a text is its surplus, provided that it never closes more than is open. -/
theorem opened?_eq_some_iff {depth inner : Nat} {text : List Char} :
    opened? depth text = some inner ↔
      (∀ before, before <+: text → 0 ≤ depth + surplus before) ∧
        (inner : Int) = depth + surplus text := by
  induction text generalizing depth with
  | nil =>
    simp only [opened?_nil, Option.some.injEq, List.prefix_nil, forall_eq, surplus_nil]
    omega
  | cons c text ih =>
    rw [forall_prefix_cons]
    have hnil : (0 : Int) ≤ depth + surplus [] := by simp
    by_cases ho : c = '('
    · have hshift : ∀ x : Int, depth + (x + 1) = ((depth + 1 : Nat) : Int) + x := by omega
      simp only [ho, opened?_open, ih, surplus_open, hnil, hshift, true_and]
    · by_cases hc : c = ')'
      · cases depth with
        | zero =>
          have hfirst :
              ¬ ∀ before, before <+: text → 0 ≤ ((0 : Nat) : Int) + (surplus before - 1) :=
            fun h => absurd (h [] List.nil_prefix) (by simp)
          simp only [hc, opened?_close_zero, surplus_close, hfirst, reduceCtorEq, and_false,
            false_and]
        | succ depth =>
          have hshift : ∀ x : Int, ((depth + 1 : Nat) : Int) + (x - 1) = depth + x := by omega
          simp only [hc, opened?_close, ih, surplus_close, hnil, hshift, true_and]
      · simp only [opened?_plain ho hc, ih, surplus_plain ho hc, hnil, true_and]

theorem balanced_iff_matched {text : List Char} : Balanced text ↔ Matched text := by
  rw [Balanced, opened?_eq_some_iff]
  simp only [Int.natCast_zero, Int.zero_add]
  exact ⟨fun h => ⟨h.1, h.2.symm⟩, fun h => ⟨h.above, h.level.symm⟩⟩

theorem Matched.opened? {text before : List Char} (h : Matched text) (hb : before <+: text) :
    ∃ inner, opened? 0 before = some inner ∧ (inner : Int) = surplus before := by
  have hopen : (surplus before).toNat = surplus before := Int.toNat_of_nonneg (h.above before hb)
  refine ⟨(surplus before).toNat, opened?_eq_some_iff.mpr ⟨?_, by simpa using hopen⟩, hopen⟩
  intro start hs
  simpa using h.above start (hs.trans hb)

/-- Up to the first parenthesis that closes more than is open, no more is closed than is open. -/
theorem surplus_take_nonneg {text : List Char} {n : Nat} (h : ∀ m < n, ¬ ClosesAt text m) :
    0 ≤ surplus (text.take n) := by
  induction n with
  | zero => simp
  | succ n ih =>
    have hbefore := ih fun m hm => h m (Nat.lt_succ_of_lt hm)
    have hnot := h n (Nat.lt_succ_self n)
    rw [List.take_add_one, surplus_append]
    cases hc : text[n]? with
    | none => simpa using hbefore
    | some c =>
      by_cases hclose : c = ')'
      · have hne : surplus (text.take n) ≠ 0 := fun hzero => hnot ⟨hclose ▸ hc, hzero⟩
        rw [hclose, Option.toList_some, surplus_close, surplus_nil]
        omega
      · by_cases hopen : c = '('
        · rw [hopen, Option.toList_some, surplus_open, surplus_nil]
          omega
        · rw [Option.toList_some, surplus_plain hopen hclose, surplus_nil]
          omega

theorem matched_take {text : List Char} {n : Nat} (first : ∀ m < n, ¬ ClosesAt text m)
    (level : surplus (text.take n) = 0) : Matched (text.take n) := by
  refine ⟨?_, level⟩
  intro before hb
  have hlength : before.length ≤ n := Nat.le_trans hb.length_le (List.length_take_le n text)
  rw [List.prefix_iff_eq_take.mp hb, List.take_take, Nat.min_eq_left hlength]
  exact surplus_take_nonneg fun m hm => first m (Nat.lt_of_lt_of_le hm hlength)

/-- The search is as deep as parentheses are open. -/
theorem foldlM_searchStep (depth : Nat) (text : List Char) :
    text.foldlM searchStep (depth : Int) = (opened? depth text).map Int.ofNat := by
  induction text generalizing depth with
  | nil => simp
  | cons c text ih =>
    rw [List.foldlM_cons]
    by_cases ho : c = '('
    · rw [ho, opened?_open, ← ih]
      rfl
    · by_cases hc : c = ')'
      · cases depth with
        | zero => simp [hc, searchStep]
        | succ depth =>
          have hstep : searchStep ((depth + 1 : Nat) : Int) ')' = some (depth : Int) := by
            simp [searchStep]
            omega
          rw [hc, opened?_close, ← ih, hstep]
          rfl
      · rw [opened?_plain ho hc, ← ih, searchStep, if_neg ho, if_neg hc]
        rfl

theorem searchDepth?_eq (text : List Char) :
    searchDepth? text = (opened? 0 text).map Int.ofNat :=
  foldlM_searchStep 0 text

/-- Where no more is closed than is open, the depth of the splitting is what is open. -/
theorem foldl_splitStep {depth inner : Nat} {text : List Char}
    (h : opened? depth text = some inner) : text.foldl splitStep depth = inner := by
  induction text generalizing depth with
  | nil => simpa using h
  | cons c text ih =>
    rw [List.foldl_cons]
    apply ih
    by_cases ho : c = '('
    · rw [ho, opened?_open] at h
      simpa [splitStep, ho] using h
    · by_cases hc : c = ')'
      · cases depth with
        | zero => simp [hc] at h
        | succ depth => simpa [splitStep, hc] using h
      · rw [opened?_plain ho hc] at h
        simpa [splitStep, ho, hc] using h

theorem splitOutside_other {depth : Nat} {c : Char} (h : ¬ (c = ',' ∧ depth = 0))
    {text part : List Char} {parts : List (List Char)}
    (hs : splitOutside (splitStep depth c) text = part :: parts) :
    splitOutside depth (c :: text) = (c :: part) :: parts := by
  rw [splitStep] at hs
  simp only [splitOutside, if_neg h, hs]

/-- Behind a text a list is taken apart at the depth that was reached. -/
theorem splitOutside_foldl (depth : Nat) (before after : List Char) :
    ∃ done last part parts, splitOutside depth before = done ++ [last] ∧
      splitOutside (before.foldl splitStep depth) after = part :: parts ∧
      splitOutside depth (before ++ after) = done ++ (last ++ part) :: parts := by
  induction before generalizing depth with
  | nil =>
    obtain ⟨part, parts, h⟩ := List.exists_cons_of_ne_nil (splitOutside_ne_nil depth after)
    exact ⟨[], [], part, parts, by simp [splitOutside], h, h⟩
  | cons c before ih =>
    obtain ⟨done, last, part, parts, hbefore, hafter, hall⟩ := ih (splitStep depth c)
    by_cases hcut : c = ',' ∧ depth = 0
    · obtain ⟨rfl, rfl⟩ := hcut
      refine ⟨[] :: done, last, part, parts, ?_, hafter, ?_⟩
      · rw [splitOutside_comma]
        exact congrArg _ hbefore
      · rw [List.cons_append, splitOutside_comma]
        exact congrArg _ hall
    · cases done with
      | nil =>
        exact ⟨[], c :: last, part, parts, splitOutside_other hcut hbefore, hafter,
          splitOutside_other hcut hall⟩
      | cons first done =>
        exact ⟨(c :: first) :: done, last, part, parts, splitOutside_other hcut hbefore, hafter,
          splitOutside_other hcut hall⟩

theorem readOn (before after : List Char) : ReadOn before after := by
  refine ⟨?_, splitOutside_foldl 0 before after⟩
  cases h : opened? 0 before with
  | none => exact Or.inr ⟨by rw [searchDepth?_eq, h, Option.map_none], exists_closing?_of_opened? h⟩
  | some depth =>
    exact Or.inl ⟨depth, by rw [searchDepth?_eq, h]; rfl, closing?_append h after⟩

theorem closesAt_of_closing? {text body rest : List Char}
    (h : closing? 0 text = some (body, rest)) : ClosesAt text body.length := by
  obtain ⟨rfl, hopen⟩ := eq_append_of_closing? h
  have hmatched : Matched body := balanced_iff_matched.mp hopen
  exact ⟨by simp, by simpa using hmatched.level⟩

/-- The parenthesis that is found is the first one that closes more than is open. -/
theorem readAlike_of_first {text : List Char} {n : Nat} (h : ClosesAt text n)
    (first : ∀ m < n, ¬ ClosesAt text m) :
    ReadAlike text (listBody text).1 (listBody text).2 := by
  obtain ⟨hn, hget⟩ := List.getElem?_eq_some_iff.mp h.1
  have hmatched := matched_take first h.2
  have hbalanced := balanced_iff_matched.mpr hmatched
  have htext : text = text.take n ++ ')' :: text.drop (n + 1) := by
    rw [← hget, List.getElem_cons_drop, List.take_append_drop]
  have hbody : listBody text = (text.take n, text.drop (n + 1)) := by
    conv_lhs => rw [htext]
    exact listBody_append hbalanced _
  rw [hbody]
  have hlength : (text.take n).length = n := by
    rw [List.length_take]
    omega
  have hdepths : ∀ before, before <+: text.take n →
      searchDepth? before = some (surplus before) ∧ (splitDepth before : Int) = surplus before := by
    intro before hb
    obtain ⟨inner, hopen, hinner⟩ := hmatched.opened? hb
    rw [searchDepth?_eq, hopen, splitDepth, foldl_splitStep hopen]
    exact ⟨congrArg some hinner, hinner⟩
  constructor
  case joined => exact htext
  case first => rwa [hlength]
  case matched => exact hmatched
  case depths => exact hdepths
  case unsaturated =>
    intro before hb
    have hafter := hmatched.above _ hb
    have hdepth := (hdepths before ((List.prefix_append _ _).trans hb)).2
    rw [surplus_append, surplus_close, surplus_nil] at hafter
    omega
  case parts =>
    intro part hp
    have hentry := entry_of_mem_splitTopLevel hbalanced hp
    have hpart := balanced_iff_matched.mp hentry.balanced
    refine ⟨hpart, ?_⟩
    rintro before ⟨after, rfl⟩
    have hprefix : before <+: before ++ [','] ++ after := ⟨',' :: after, by simp⟩
    obtain ⟨inner, hopen, hinner⟩ := hpart.opened? hprefix
    have hne := hentry.commas before.length (by simp) (by simp)
    rw [List.append_assoc, List.take_left, hopen] at hne
    have hzero : inner ≠ 0 := fun hzero => hne (congrArg some hzero)
    omega

/-- Taking a list apart at its commas loses nothing. In a list that is closed both readers are at
the same depth throughout, which is the surplus of opening parentheses. -/
theorem readers_agree (text : List Char) :
    [','].intercalate (splitTopLevel text) = text ∧
    (∀ before after, text = before ++ after → ReadOn before after) ∧
    ((∃ n, ClosesAt text n) → ReadAlike text (listBody text).1 (listBody text).2) ∧
    ((∀ n, ¬ ClosesAt text n) → listBody text = (text, [])) := by
  refine ⟨intercalate_splitOutside 0 text, fun before after _ => readOn before after, ?_, ?_⟩
  · intro hexists
    exact readAlike_of_first (Nat.find_spec hexists) fun m => Nat.find_min hexists
  · intro hnone
    rw [listBody]
    cases h : closing? 0 text with
    | none => rfl
    | some found => exact absurd (closesAt_of_closing? h) (hnone _)

/-- The list of orders ends before the clause, whose parenthesis nothing closes. -/
theorem readers_agree_orders :
    ClosesAt "(uint8,bool)[] a, b) returns (c".toList 19 ∧
    ReadAlike "(uint8,bool)[] a, b) returns (c".toList "(uint8,bool)[] a, b".toList
      " returns (c".toList ∧
    splitTopLevel "(uint8,bool)[] a, b".toList = ["(uint8,bool)[] a".toList, " b".toList] := by
  have hcloses : ClosesAt "(uint8,bool)[] a, b) returns (c".toList 19 := by decide
  exact ⟨hcloses, (readers_agree _).2.2.1 ⟨19, hcloses⟩, by decide⟩

end EvmInspect.Text
