import EvmInspect.Signature.Grammar
import EvmInspect.Text.Blank.Lemmas
import EvmInspect.Text.Brackets.Lemmas

namespace EvmInspect

theorem Text.not_mem_trim {mark : Char} {text : List Char} (h : mark ∉ text) :
    mark ∉ Text.trim text :=
  fun hmem => h ((infix_of_trim text).subset hmem)

theorem Text.Guarded.trim {text : List Char} (h : Text.Guarded text) :
    Text.Guarded (Text.trim text) := by
  obtain ⟨before, behind, htext, hbefore, _⟩ := exists_gaps text
  rw [htext] at h
  apply h.inside
  intro hopen
  exact absurd (hbefore '(' hopen) (by decide)

namespace Param

/-- A parameter whose type can have been read from a list. -/
structure Legible (p : Param) : Prop where
  starts : ∃ c rest, p.type.toList = c :: rest ∧ Text.isBlank c = false
  guarded : Text.Guarded p.type.toList

theorem legible_read {text : List Char} (htrim : Text.Trimmed text) (hne : text ≠ [])
    (hg : Text.Guarded text) : (read text).Legible := by
  obtain ⟨c, rest, rfl⟩ := List.exists_cons_of_ne_nil hne
  have hc : Text.isBlank c = false := htrim.1 c rfl
  unfold read
  split
  · exact ⟨⟨c, rest, String.toList_ofList, hc⟩, by rwa [String.toList_ofList]⟩
  · rename_i type name hspace
    obtain ⟨htext, _⟩ := Text.eq_append_of_around? hspace
    constructor
    · cases type with
      | nil =>
        obtain ⟨rfl, _⟩ := List.cons.inj htext
        exact absurd hc (by decide)
      | cons d type =>
        obtain ⟨rfl, _⟩ := List.cons.inj htext
        exact ⟨c, type, String.toList_ofList, hc⟩
    · rw [htext, ← List.nil_append (type ++ _)] at hg
      rw [String.toList_ofList]
      exact hg.inside List.not_mem_nil

theorem legible_of_mem_readList {body : List Char} {p : Param} (h : p ∈ readList body) :
    p.Legible := by
  obtain ⟨text, htext, rfl⟩ := List.mem_map.mp h
  obtain ⟨hpart, hne⟩ := List.mem_filter.mp htext
  obtain ⟨part, hmem, rfl⟩ := List.mem_map.mp hpart
  exact legible_read (Text.trimmed_trim part) (by simpa using hne)
    (Text.guarded_of_mem_splitTopLevel hmem).trim

end Param

namespace Signature

structure Legible (s : Signature) : Prop where
  name_plain : '(' ∉ s.name.toList
  name_trimmed : Text.Trimmed s.name.toList
  inputs : ∀ p ∈ s.inputs, p.Legible

theorem legible_ofText (text : String) : (ofText text).Legible := by
  unfold ofText read
  dsimp only
  split
  · rename_i hplain
    refine ⟨?_, ?_, fun p hp => by cases hp⟩
    · simpa using Text.not_mem_of_around? hplain
    · simpa using Text.trimmed_trim text.toList
  · rename_i name list hopen
    obtain ⟨_, hplain⟩ := Text.eq_append_of_around? hopen
    refine ⟨?_, ?_, fun p hp => Param.legible_of_mem_readList hp⟩
    · simpa using Text.not_mem_trim hplain
    · simpa using Text.trimmed_trim name

theorem raw_ofText (text : String) : (ofText text).raw = text := by
  simp only [ofText, read]
  split <;> exact String.ofList_toList

/-- Blanks around a text do not change what is read from it. -/
theorem ofText_trim (text : String) :
    ofText (String.ofList (Text.trim text.toList)) =
      { ofText text with raw := String.ofList (Text.trim text.toList) } := by
  simp only [ofText, read, String.toList_ofList, Text.trim_trim]
  split <;> rfl

theorem toList_typeList (params : List Param) : (typeList params).toList =
    [','].intercalate (params.map fun p => p.type.toList) := by
  simp [typeList, Function.comp_def]

theorem toList_canonicalForm (name : String) (inputs : List Param) :
    (canonicalForm name inputs).toList =
      name.toList ++ '(' :: ((typeList inputs).toList ++ [')']) := by
  simp [canonicalForm]

variable {s : Signature}

theorem Legible.trimmed_canonical (h : s.Legible) : Text.Trimmed s.canonical.toList := by
  have hlist : Text.Trimmed ('(' :: ((typeList s.inputs).toList ++ [')'])) := by
    have hopen : Text.Trimmed ['('] := by decide
    have hclose : Text.Trimmed [')'] := by decide
    exact hopen.around hclose (by simp) (by simp) _
  rw [canonical, toList_canonicalForm]
  exact h.name_trimmed.append hlist

/-- No blank follows a comma between types that were read. -/
theorem starts_behind_comma {params : List Param} (h : ∀ p ∈ params, p.Legible)
    {before rest : List Char}
    (hlist : [','].intercalate (params.map fun p => p.type.toList) = before ++ ',' :: rest)
    (hopen : '(' ∉ before) : ∃ c more, rest = c :: more ∧ Text.isBlank c = false := by
  induction params generalizing before with
  | nil => simp at hlist
  | cons p params ih =>
    obtain ⟨hp, hparams⟩ := List.forall_mem_cons.mp h
    cases params with
    | nil =>
      rw [List.map_singleton, List.intercalate_singleton] at hlist
      exact absurd (hp.guarded before rest hlist) hopen
    | cons q params =>
      obtain ⟨c, type, htype, hc⟩ := (hparams q List.mem_cons_self).starts
      have hjoin : [','].intercalate ((p :: q :: params).map fun p => p.type.toList) =
          p.type.toList ++ ',' :: [','].intercalate ((q :: params).map fun p => p.type.toList) := by
        simp [List.intercalate_cons_cons]
      rw [hjoin] at hlist
      -- the comma stands behind the first type, or further on, but not within the type
      rcases Text.marks_of_append_eq hlist with ⟨_, rfl⟩ | ⟨more, rfl, hmore⟩ | ⟨more, htype, _⟩
      · cases params <;> simp [List.intercalate_cons_cons, htype, hc]
      · simp only [List.mem_append, List.mem_cons, not_or] at hopen
        exact ih hparams hmore hopen.2.2
      · exact absurd (hp.guarded before more htype) hopen

end Signature
end EvmInspect
