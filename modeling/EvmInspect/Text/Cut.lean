namespace EvmInspect.Text

def dropStart? : (start text : List Char) → Option (List Char)
  | [], text => some text
  | _ :: _, [] => none
  | s :: start, c :: text => if s = c then dropStart? start text else none

def dropLast? (last : Char) (text : List Char) : Option (List Char) :=
  if text.getLast? = some last then some text.dropLast else none

def after? (part : List Char) : List Char → Option (List Char)
  | [] => dropStart? part []
  | c :: text => (dropStart? part (c :: text)).or (after? part text)

def around? (mark : Char) : List Char → Option (List Char × List Char)
  | [] => none
  | c :: text =>
    if c = mark then some ([], text)
    else (around? mark text).map fun (before, rest) => (c :: before, rest)

def aroundLast? (mark : Char) : List Char → Option (List Char × List Char)
  | [] => none
  | c :: text =>
    match aroundLast? mark text with
    | some (before, rest) => some (c :: before, rest)
    | none => if c = mark then some ([], text) else none

theorem eq_append_of_dropStart? {start text rest : List Char}
    (h : dropStart? start text = some rest) : text = start ++ rest := by
  induction start generalizing text with
  | nil => simpa [dropStart?] using h
  | cons s start ih =>
    cases text with
    | nil => simp [dropStart?] at h
    | cons c text =>
      simp only [dropStart?] at h
      split at h
      · subst c
        simp [ih h]
      · simp at h

theorem dropStart?_append (start rest : List Char) :
    dropStart? start (start ++ rest) = some rest := by
  induction start with
  | nil => rfl
  | cons s start ih => simp [dropStart?, ih]

theorem dropStart?_eq_none {start text : List Char} (h : ¬ start <+: text) :
    dropStart? start text = none := by
  cases hd : dropStart? start text with
  | none => rfl
  | some rest => exact absurd ⟨rest, (eq_append_of_dropStart? hd).symm⟩ h

theorem eq_append_of_around? {mark : Char} {text before rest : List Char}
    (h : around? mark text = some (before, rest)) :
    text = before ++ mark :: rest ∧ mark ∉ before := by
  induction text generalizing before with
  | nil => simp [around?] at h
  | cons c text ih =>
    simp only [around?] at h
    split at h
    · next hc =>
      simp only [Option.some.injEq, Prod.mk.injEq] at h
      obtain ⟨rfl, rfl⟩ := h
      simp [hc]
    · next hc =>
      obtain ⟨⟨b, r⟩, hb, he⟩ := Option.map_eq_some_iff.mp h
      simp only [Prod.mk.injEq] at he
      obtain ⟨rfl, rfl⟩ := he
      obtain ⟨ht, hn⟩ := ih hb
      exact ⟨by simp [ht], by simp [hn, Ne.symm hc]⟩

/-- The first mark is the one behind a text without it. -/
theorem around?_append {mark : Char} {before : List Char} (h : mark ∉ before) (rest : List Char) :
    around? mark (before ++ mark :: rest) = some (before, rest) := by
  induction before with
  | nil => simp [around?]
  | cons c before ih =>
    rw [List.mem_cons, not_or] at h
    simp [around?, Ne.symm h.1, ih h.2]

theorem around?_eq_none {mark : Char} {text : List Char} (h : mark ∉ text) :
    around? mark text = none := by
  cases hs : around? mark text with
  | none => rfl
  | some parts =>
    obtain ⟨ht, _⟩ := eq_append_of_around? hs
    rw [ht] at h
    simp at h

theorem not_mem_of_around? {mark : Char} {text : List Char} (h : around? mark text = none) :
    mark ∉ text := by
  intro hm
  obtain ⟨before, rest, rfl, hbefore⟩ := List.eq_append_cons_of_mem hm
  rw [around?_append hbefore] at h
  cases h

theorem not_mem_of_aroundLast? {mark : Char} {text : List Char}
    (h : aroundLast? mark text = none) : mark ∉ text := by
  induction text with
  | nil => simp
  | cons c text ih =>
    simp only [aroundLast?] at h
    split at h
    · simp at h
    · next hn =>
      split at h
      · simp at h
      · next hc => simp [ih hn, Ne.symm hc]

theorem eq_append_of_aroundLast? {mark : Char} {text before rest : List Char}
    (h : aroundLast? mark text = some (before, rest)) :
    text = before ++ mark :: rest ∧ mark ∉ rest := by
  induction text generalizing before with
  | nil => simp [aroundLast?] at h
  | cons c text ih =>
    simp only [aroundLast?] at h
    split at h
    · next b r hb =>
      simp only [Option.some.injEq, Prod.mk.injEq] at h
      obtain ⟨rfl, rfl⟩ := h
      obtain ⟨ht, hn⟩ := ih hb
      exact ⟨by simp [ht], hn⟩
    · next hb =>
      split at h
      · next hc =>
        simp only [Option.some.injEq, Prod.mk.injEq] at h
        obtain ⟨rfl, rfl⟩ := h
        exact ⟨by simp [hc], not_mem_of_aroundLast? hb⟩
      · simp at h

theorem dropLast?_append (last : Char) (text : List Char) :
    dropLast? last (text ++ [last]) = some text := by
  simp [dropLast?]

theorem eq_append_of_dropLast? {last : Char} {text body : List Char}
    (h : dropLast? last text = some body) : text = body ++ [last] := by
  unfold dropLast? at h
  split at h
  · rename_i hlast
    cases h
    obtain ⟨before, rfl⟩ := List.getLast?_eq_some_iff.mp hlast
    simp
  · cases h

theorem dropLast?_eq_none {last : Char} {text : List Char} (h : text.getLast? ≠ some last) :
    dropLast? last text = none :=
  if_neg h

theorem aroundLast?_eq_none {mark : Char} {text : List Char} (h : mark ∉ text) :
    aroundLast? mark text = none := by
  induction text with
  | nil => rfl
  | cons c text ih =>
    rw [List.mem_cons, not_or] at h
    simp [aroundLast?, ih h.2, Ne.symm h.1]

/-- The last mark is the one before a text without it. -/
theorem aroundLast?_append {mark : Char} {rest : List Char} (h : mark ∉ rest)
    (before : List Char) :
    aroundLast? mark (before ++ mark :: rest) = some (before, rest) := by
  induction before with
  | nil => simp [aroundLast?, aroundLast?_eq_none h]
  | cons c before ih => simp [aroundLast?, ih]

/-- Of two marks in a text, one stands before the other, or they are the same. -/
theorem marks_of_append_eq {mark : Char} {first later start rest : List Char}
    (h : first ++ mark :: later = start ++ mark :: rest) :
    (start = first ∧ rest = later) ∨
      (∃ more, start = first ++ mark :: more ∧ later = more ++ mark :: rest) ∨
      ∃ more, first = start ++ mark :: more ∧ rest = more ++ mark :: later := by
  rcases List.append_eq_append_iff.mp h with ⟨more, rfl, hl⟩ | ⟨more, rfl, hl⟩
  · cases more with
    | nil => exact Or.inl ⟨by simp, (List.cons.inj hl).2.symm⟩
    | cons c more =>
      obtain ⟨rfl, hmore⟩ := List.cons.inj hl
      exact Or.inr (Or.inl ⟨more, rfl, hmore⟩)
  · cases more with
    | nil => exact Or.inl ⟨by simp, (List.cons.inj hl).2⟩
    | cons c more =>
      obtain ⟨rfl, hmore⟩ := List.cons.inj hl
      exact Or.inr (Or.inr ⟨more, rfl, hmore⟩)

end EvmInspect.Text
