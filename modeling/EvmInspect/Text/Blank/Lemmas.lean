import EvmInspect.Text.Blank
import EvmInspect.Text.Cut

namespace EvmInspect.Text

theorem trimEnd_append_gap (text : List Char) :
    trimEnd text ++ (text.reverse.takeWhile isBlank).reverse = text := by
  rw [trimEnd, ← List.reverse_append, List.takeWhile_append_dropWhile, List.reverse_reverse]

/-- What is cut off a text are blanks. -/
theorem exists_gaps (text : List Char) : ∃ before behind, text = before ++ (trim text ++ behind) ∧
    (∀ c ∈ before, isBlank c = true) ∧ ∀ c ∈ behind, isBlank c = true := by
  refine ⟨text.takeWhile isBlank, ((trimStart text).reverse.takeWhile isBlank).reverse, ?_, ?_, ?_⟩
  · rw [trim, trimEnd_append_gap, trimStart, List.takeWhile_append_dropWhile]
  · exact List.all_eq_true.mp List.all_takeWhile
  · exact fun c hc => List.all_eq_true.mp List.all_takeWhile c (List.mem_reverse.mp hc)

theorem infix_of_trim (text : List Char) : trim text <:+: text := by
  obtain ⟨before, behind, htext, _⟩ := exists_gaps text
  exact ⟨before, behind, by rw [List.append_assoc, ← htext]⟩

theorem not_isBlank_of_head?_dropWhile {text : List Char} {c : Char}
    (hc : c ∈ (text.dropWhile isBlank).head?) : isBlank c = false := by
  have h := List.head?_dropWhile_not isBlank text
  rw [hc] at h
  simpa using h

theorem trimmed_trim (text : List Char) : Trimmed (trim text) := by
  constructor
  · intro c hc
    have hstart : c ∈ (trimStart text).head? := by
      rw [← trimEnd_append_gap (trimStart text), ← trim, List.head?_append, hc]
      rfl
    exact not_isBlank_of_head?_dropWhile hstart
  · intro c hc
    rw [trim, trimEnd, List.getLast?_reverse] at hc
    exact not_isBlank_of_head?_dropWhile hc

theorem trim_trim (text : List Char) : trim (trim text) = trim text :=
  trim_eq_self (trimmed_trim text)

/-- Blanks behind a text do not count. -/
theorem trim_append_gap (text : List Char) {gap : List Char} (h : ∀ c ∈ gap, isBlank c = true) :
    trim (text ++ gap) = trim text := by
  have hend : ∀ text, trimEnd (text ++ gap) = trimEnd text := by
    intro text
    rw [trimEnd, trimEnd, List.reverse_append, List.dropWhile_append_of_pos]
    exact fun c hc => h c (List.mem_reverse.mp hc)
  rw [trim, trim, trimStart, trimStart, List.dropWhile_append]
  split
  · rename_i hnone
    rw [List.isEmpty_iff.mp hnone, ← List.append_nil gap, List.dropWhile_append_of_pos h,
      List.dropWhile_nil]
  · exact hend _

/-- A blank parts the words before it from those behind it. -/
theorem words_append_blank {b : Char} (hb : isBlank b = true) (text rest : List Char) :
    words (text ++ b :: rest) = words text ++ words rest := by
  rw [words, List.splitOnP_append_cons text rest hb, List.filter_append]
  rfl

theorem words_nil : words [] = [] := by
  simp [words]

/-- A text without blanks is one word. -/
theorem words_unbroken {text : List Char} (h : ∀ c ∈ text, isBlank c = false) (hne : text ≠ []) :
    words text = [text] := by
  simp [words, List.splitOnP_eq_singleton h, hne]

/-- A text without blanks, or such a text, a blank and any text behind it: to show something of all
texts it is enough to show it of these. -/
theorem blank_induction {motive : List Char → Prop}
    (unbroken : ∀ text, (∀ c ∈ text, isBlank c = false) → motive text)
    (blank : ∀ first b rest, (∀ c ∈ first, isBlank c = false) → isBlank b = true → motive rest →
      motive (first ++ b :: rest))
    (text : List Char) : motive text := by
  have hfirst : ∀ c ∈ text.takeWhile (! isBlank ·), isBlank c = false := fun c hc => by
    simpa using List.all_eq_true.mp List.all_takeWhile c hc
  have happend := List.takeWhile_append_dropWhile (p := (! isBlank ·)) (l := text)
  cases hrest : text.dropWhile (! isBlank ·) with
  | nil =>
    rw [hrest, List.append_nil] at happend
    exact unbroken text (happend ▸ hfirst)
  | cons b rest =>
    have hb := List.head?_dropWhile_not (! isBlank ·) text
    rw [hrest] at happend hb
    have hshorter : rest.length < text.length := by
      rw [← happend, List.length_append, List.length_cons]
      omega
    rw [← happend]
    exact blank _ b rest hfirst (by simpa using hb) (blank_induction unbroken blank rest)
termination_by text.length

/-- The words together are all that is no blank. -/
theorem flatten_words (text : List Char) : (words text).flatten = text.filter (! isBlank ·) := by
  have hkept {text : List Char} (h : ∀ c ∈ text, isBlank c = false) :
      (words text).flatten = text.filter (! isBlank ·) := by
    rw [List.filter_eq_self.mpr fun c hc => by simp [h c hc]]
    by_cases hne : text = []
    · simp [hne, words_nil]
    · simp [words_unbroken h hne]
  induction text using blank_induction with
  | unbroken text h => exact hkept h
  | blank first b rest h hb ih =>
    rw [words_append_blank hb, List.flatten_append, hkept h, ih, List.filter_append,
      List.filter_cons_of_neg (by simp [hb])]

theorem words_ne_nil {text : List Char} {c : Char} (hc : c ∈ text) (h : isBlank c = false) :
    words text ≠ [] := by
  intro hnil
  have hmem : c ∈ (words text).flatten := by
    rw [flatten_words]
    exact List.mem_filter.mpr ⟨hc, by simp [h]⟩
  rw [hnil] at hmem
  cases hmem

theorem intercalate_append {sep : List Char} {first rest : List (List Char)} (hf : first ≠ [])
    (hr : rest ≠ []) :
    sep.intercalate (first ++ rest) = sep.intercalate first ++ (sep ++ sep.intercalate rest) := by
  induction first with
  | nil => exact absurd rfl hf
  | cons part first ih =>
    cases first with
    | nil =>
      obtain ⟨next, rest, rfl⟩ := List.exists_cons_of_ne_nil hr
      simp [List.intercalate_cons_cons]
    | cons second first =>
      have hrest := ih (by simp)
      simp only [List.cons_append] at hrest ⊢
      rw [List.intercalate_cons_cons, hrest, List.intercalate_cons_cons]
      simp

theorem collapse_unbroken {text : List Char} (h : ∀ c ∈ text, isBlank c = false) :
    collapse text = text := by
  by_cases hne : text = []
  · rw [hne, collapse, words_nil]
    rfl
  · rw [collapse, words_unbroken h hne, List.intercalate_singleton]

/-- A blank between words is made a space. -/
theorem collapse_append_blank {b : Char} (hb : isBlank b = true) {text rest : List Char}
    (ht : words text ≠ []) (hr : words rest ≠ []) :
    collapse (text ++ b :: rest) = collapse text ++ ' ' :: collapse rest := by
  rw [collapse, words_append_blank hb, intercalate_append ht hr]
  rfl

theorem collapse_blank_append {b : Char} (hb : isBlank b = true) {text : List Char}
    (h : words text = []) (rest : List Char) : collapse (text ++ b :: rest) = collapse rest := by
  rw [collapse, words_append_blank hb, h, List.nil_append, ← collapse]

theorem collapse_append_gap {b : Char} (hb : isBlank b = true) (text : List Char)
    {rest : List Char} (h : words rest = []) : collapse (text ++ b :: rest) = collapse text := by
  rw [collapse, words_append_blank hb, h, List.append_nil, ← collapse]

/-- Collapsing keeps all that is no blank, in its order. -/
theorem filter_collapse (text : List Char) :
    (collapse text).filter (! isBlank ·) = text.filter (! isBlank ·) := by
  induction text using blank_induction with
  | unbroken text h => rw [collapse_unbroken h]
  | blank first b rest h hb ih =>
    rw [List.filter_append, List.filter_cons_of_neg (by simp [hb])]
    by_cases hf : words first = []
    · rw [collapse_blank_append hb hf, ih, ← flatten_words first, hf]
      rfl
    · by_cases hr : words rest = []
      · rw [collapse_append_gap hb first hr, collapse_unbroken h, ← flatten_words rest, hr]
        simp
      · rw [collapse_append_blank hb hf hr, collapse_unbroken h, List.filter_append,
          List.filter_cons_of_neg (by decide), ih]

/-- A space that collapsing leaves stands for a blank of the text, directly behind something that
is no blank. -/
theorem exists_blank_of_collapse {text start rest : List Char}
    (h : collapse text = start ++ ' ' :: rest) :
    ∃ before c b behind, text = before ++ c :: b :: behind ∧ isBlank c = false ∧
      isBlank b = true ∧ collapse (before ++ [c]) = start := by
  induction text using blank_induction generalizing start with
  | unbroken text hu =>
    rw [collapse_unbroken hu] at h
    exact absurd (hu ' ' (by simp [h])) (by decide)
  | blank first b later hu hb ih =>
    have hfirst := collapse_unbroken hu
    by_cases hf : words first = []
    · rw [collapse_blank_append hb hf] at h
      obtain ⟨before, c, d, behind, rfl, hc, hd, hs⟩ := ih h
      refine ⟨first ++ b :: before, c, d, behind, by simp, hc, hd, ?_⟩
      rw [List.append_assoc, List.cons_append, collapse_blank_append hb hf, hs]
    · by_cases hr : words later = []
      · rw [collapse_append_gap hb first hr, hfirst] at h
        exact absurd (hu ' ' (by simp [h])) (by decide)
      · rw [collapse_append_blank hb hf hr, hfirst] at h
        have hspace : ' ' ∉ first := fun hm => absurd (hu ' ' hm) (by decide)
        rcases marks_of_append_eq h with ⟨rfl, _⟩ | ⟨more, rfl, hmore⟩ | ⟨more, rfl, _⟩
        · obtain ⟨before, c, rfl⟩ := (List.eq_nil_or_concat start).resolve_left fun hnil =>
            hf (by rw [hnil, words_nil])
          exact ⟨before, c, b, later, by simp, hu c (by simp), hb, by simpa using hfirst⟩
        · obtain ⟨before, c, d, behind, rfl, hc, hd, hs⟩ := ih hmore
          refine ⟨first ++ b :: before, c, d, behind, by simp, hc, hd, ?_⟩
          have hbefore : words (before ++ [c]) ≠ [] := words_ne_nil (by simp) hc
          rw [List.append_assoc, List.cons_append, collapse_append_blank hb hf hbefore, hfirst, hs]
        · exact absurd hspace (by simp)

theorem words_gap_append {gap : List Char} (h : ∀ c ∈ gap, isBlank c = true) (text : List Char) :
    words (gap ++ text) = words text := by
  induction gap with
  | nil => rfl
  | cons b gap ih =>
    have hb := words_append_blank (h b List.mem_cons_self) [] (gap ++ text)
    rw [List.nil_append, words_nil, List.nil_append] at hb
    rw [List.cons_append, hb, ih fun c hc => h c (List.mem_cons_of_mem _ hc)]

theorem words_append_gap (text : List Char) {gap : List Char} (h : ∀ c ∈ gap, isBlank c = true) :
    words (text ++ gap) = words text := by
  cases gap with
  | nil => rw [List.append_nil]
  | cons b gap =>
    have hgap := words_gap_append (fun c hc => h c (List.mem_cons_of_mem _ hc)) []
    rw [List.append_nil, words_nil] at hgap
    rw [words_append_blank (h b List.mem_cons_self), hgap, List.append_nil]

theorem collapse_trim (text : List Char) : collapse (trim text) = collapse text := by
  obtain ⟨before, behind, htext, hbefore, hbehind⟩ := exists_gaps text
  have hwords : words text = words (trim text) := by
    rw [htext, words_gap_append hbefore, words_append_gap _ hbehind, ← htext]
  rw [collapse, collapse, hwords]

/-- Collapsing is no more than trimming when it leaves no space. -/
theorem collapse_eq_trim {text : List Char} (h : ' ' ∉ collapse text) :
    collapse text = trim text := by
  obtain ⟨hhead, hlast⟩ := trimmed_trim text
  rw [← collapse_trim] at h ⊢
  generalize trim text = trimmed at h hhead hlast
  induction trimmed using blank_induction with
  | unbroken trimmed hu => exact collapse_unbroken hu
  | blank first b rest hu hb _ =>
    have hf : words first ≠ [] := by
      cases first with
      | nil => exact absurd hb (by simp [hhead b rfl])
      | cons c first => exact words_ne_nil List.mem_cons_self (hu c List.mem_cons_self)
    have hr : words rest ≠ [] := by
      cases hl : rest.getLast? with
      | none =>
        obtain rfl := List.getLast?_eq_none_iff.mp hl
        exact absurd hb (by simp [hlast b (by simp)])
      | some c =>
        refine words_ne_nil (List.mem_of_getLast? hl) (hlast c ?_)
        rw [List.getLast?_append, List.getLast?_cons, hl]
        rfl
    rw [collapse_append_blank hb hf hr] at h
    simp at h

theorem collapse_ne_nil {text : List Char} (h : words text ≠ []) : collapse text ≠ [] := by
  intro hnil
  obtain ⟨word, words', hw⟩ := List.exists_cons_of_ne_nil h
  have hempty : (words text).flatten = [] := by
    rw [flatten_words, ← filter_collapse, hnil]
    rfl
  have hmem : word ∈ words text := by simp [hw]
  have hkept : word ≠ [] := by simpa using (List.mem_filter.mp hmem).2
  exact hkept (List.flatten_eq_nil_iff.mp hempty word hmem)

/-- Collapsing leaves no blank at the ends. -/
theorem trimmed_collapse (text : List Char) : Trimmed (collapse text) := by
  induction text using blank_induction with
  | unbroken text h =>
    rw [collapse_unbroken h]
    exact trimmed_of_unbroken h
  | blank first b rest h hb ih =>
    have hfirst : Trimmed (collapse first) := by
      rw [collapse_unbroken h]
      exact trimmed_of_unbroken h
    by_cases hf : words first = []
    · rwa [collapse_blank_append hb hf]
    · by_cases hr : words rest = []
      · rwa [collapse_append_gap hb first hr]
      · rw [collapse_append_blank hb hf hr]
        exact hfirst.around ih (collapse_ne_nil hf) (collapse_ne_nil hr) [' ']

end EvmInspect.Text
