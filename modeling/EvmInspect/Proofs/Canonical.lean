import EvmInspect.Proofs.Matching
import EvmInspect.Abi.Call

namespace EvmInspect

namespace Text

theorem isBlank_of_trim_eq_nil {text : List Char} (h : trim text = []) :
    ∀ c ∈ text, isBlank c = true := by
  obtain ⟨before, behind, htext, hbefore, hbehind⟩ := exists_gaps text
  rw [h, List.nil_append] at htext
  rw [htext]
  intro c hc
  rcases List.mem_append.mp hc with hc | hc
  · exact hbefore c hc
  · exact hbehind c hc

/-- Blanks around an entry of a list belong to it. -/
theorem entry_of_trim {text : List Char} (h : Entry (trim text)) : Entry text := by
  obtain ⟨before, behind, htext, hbefore, hbehind⟩ := exists_gaps text
  rw [htext]
  exact (entry_of_blank hbefore).append (h.append (entry_of_blank hbehind))

theorem entry_of_word {text : List Char} (h : ∀ c ∈ text, c.isAlphanum = true ∨ c = '+') :
    Entry text := by
  apply entry_of_plain
  intro c hc
  have hplain := h c hc
  refine ⟨?_, ?_, ?_⟩ <;> rintro rfl <;> revert hplain <;> decide

/-- Lists of as many entries that are joined alike are the same. -/
theorem intercalate_inj {entries others : List (List Char)} (he : ∀ e ∈ entries, Entry e)
    (ho : ∀ e ∈ others, Entry e) (hlength : entries.length = others.length) :
    [','].intercalate entries = [','].intercalate others ↔ entries = others := by
  constructor
  · intro h
    by_cases hne : entries = []
    · rw [hne, List.length_nil, eq_comm, List.length_eq_zero_iff] at hlength
      rw [hne, hlength]
    · have hother : others ≠ [] := by
        rintro rfl
        exact hne (List.length_eq_zero_iff.mp hlength)
      rw [← splitTopLevel_intercalate he hne, h, splitTopLevel_intercalate ho hother]
  · rintro rfl
    rfl

end Text

namespace Param

/-- Types are compared as strings or as texts. -/
theorem map_type_inj {params others : List Param} : params.map Param.type = others.map Param.type ↔
    params.map (fun p => p.type.toList) = others.map fun p => p.type.toList := by
  have htypes (ps : List Param) : (ps.map fun p => p.type.toList) =
      (ps.map Param.type).map String.toList := by simp
  rw [htypes, htypes, List.map_inj_right fun _ _ => String.toList_inj.mp]

end Param

namespace Signature

/-- One name and two lists of types make one canonical form when the lists are written alike. -/
theorem canonicalForm_inj_typeList {name : String} {params others : List Param} :
    canonicalForm name params = canonicalForm name others ↔ typeList params = typeList others := by
  rw [← String.toList_inj, toList_canonicalForm, toList_canonicalForm, List.append_cancel_left_eq,
    List.cons.injEq, eq_self, true_and, List.append_cancel_right_eq, String.toList_inj]

end Signature

namespace Abi

namespace AbiType

theorem plain_of_arrayOf {element t : AbiType} {size text : List Char}
    (h : arrayOf element size text = .ok t) : ∀ c ∈ size, c.isAlphanum = true ∨ c = '+' := by
  unfold arrayOf at h
  split at h
  · rename_i hsize
    simp [hsize]
  · split at h
    · cases h
    · rename_i length hlength
      exact Text.plain_of_readSize? hlength

/-- A text that is read as a type can stand in a list. -/
theorem entry_of_readWithin {fuel : Nat} {text : List Char} {t : AbiType}
    (h : readWithin fuel text = .ok t) : Text.Entry text := by
  refine readWithin_induction (motive := fun text _ => Text.Entry text) ?word ?array ?tuple h
  case word =>
    intro text t h
    apply Text.entry_of_trim
    exact Text.entry_of_word (plain_of_ofWord? h)
  case array =>
    intro text inner size element t htext hinner h
    apply Text.entry_of_trim
    rw [htext]
    apply hinner.append
    have hsize : Text.Entry size := by
      apply Text.entry_of_trim
      exact Text.entry_of_word (plain_of_arrayOf h)
    have hopen : Text.Entry ['['] := ⟨by decide, by decide⟩
    have hclose : Text.Entry [']'] := ⟨by decide, by decide⟩
    exact hopen.append (hsize.append hclose)
  case tuple =>
    intro text opening body members hopening htext _ hmembers
    apply Text.entry_of_trim
    rw [htext]
    have hword : Text.Entry opening := by
      rcases hopening with rfl | rfl
      · exact ⟨by decide, by decide⟩
      · exact ⟨by decide, by decide⟩
    apply hword.append
    apply Text.Balanced.entry
    rw [← Text.intercalate_splitOutside 0 body]
    apply Text.balanced_intercalate
    intro part hpart
    by_cases hblank : Text.trim part = []
    · exact Text.entry_of_blank (Text.isBlank_of_trim_eq_nil hblank)
    · have hkept : part ∈ parts body := List.mem_filter.mpr ⟨hpart, by simpa using hblank⟩
      obtain ⟨_, _, hentry⟩ := exists_of_mem_forall₂ hmembers hkept
      exact hentry

end AbiType

/-- The canonical form of a function with arguments of these types. -/
def formOf (name : String) (types : List AbiType) : String :=
  name ++ "(" ++ ",".intercalate (types.map AbiType.display) ++ ")"

variable {params others : List Param} {types : List AbiType}

theorem forall₂_paramTypes (h : paramTypes params = .ok types) :
    List.Forall₂ (fun p t => AbiType.ofText p.type = .ok t) params types :=
  forall₂_of_mapM_ok h

theorem entries_paramTypes (h : paramTypes params = .ok types) :
    ∀ text ∈ params.map fun p => p.type.toList, Text.Entry text := by
  intro text ht
  obtain ⟨p, hp, rfl⟩ := List.mem_map.mp ht
  obtain ⟨t, _, hread⟩ := exists_of_mem_forall₂ (forall₂_paramTypes h) hp
  exact AbiType.entry_of_readWithin hread

/-- Parameters that are read as the same types make one canonical form only when their types are
written alike. -/
theorem canonicalForm_inj {name : String} (hp : paramTypes params = .ok types)
    (ho : paramTypes others = .ok types) :
    Signature.canonicalForm name params = Signature.canonicalForm name others ↔
      params.map Param.type = others.map Param.type := by
  have hlength : params.length = others.length :=
    (forall₂_paramTypes hp).length_eq.trans (forall₂_paramTypes ho).length_eq.symm
  rw [Signature.canonicalForm_inj_typeList, ← String.toList_inj, Signature.toList_typeList,
    Signature.toList_typeList, Param.map_type_inj,
    Text.intercalate_inj (entries_paramTypes hp) (entries_paramTypes ho) (by simpa using hlength)]

def displayed (types : List AbiType) : List Param :=
  types.map fun t => ⟨none, t.display⟩

theorem formOf_eq (name : String) (types : List AbiType) :
    formOf name types = Signature.canonicalForm name (displayed types) := by
  simp [formOf, Signature.canonicalForm, Signature.typeList, displayed, Function.comp_def]

theorem paramTypes_displayed (h : paramTypes params = .ok types) :
    paramTypes (displayed types) = .ok types := by
  apply mapM_map_ok
  intro t ht
  obtain ⟨p, _, hread⟩ := mem_of_mapM_ok h ht
  exact AbiType.ofText_spell (AbiType.wellFormed_of_ofText hread)
    (AbiType.lengthsFit_of_readWithin hread)

theorem map_type_eq_iff (h : paramTypes params = .ok types) :
    params.map Param.type = (displayed types).map Param.type ↔
      ∀ p ∈ params, p.isSpelled = true := by
  have hall := forall₂_paramTypes h
  clear h
  induction hall with
  | nil => simp [displayed]
  | @cons p t params types hread _ ih =>
    have hspelled : p.type = t.display ↔ p.isSpelled = true := by
      rw [Param.isSpelled_iff, hread]
      constructor
      · intro h
        exact ⟨t, rfl, h.symm⟩
      · rintro ⟨_, ht, hd⟩
        cases ht
        exact hd.symm
    rw [displayed, List.map_cons, List.map_cons, List.map_cons, List.cons.injEq,
      List.forall_mem_cons, hspelled]
    exact and_congr_right fun _ => ih

/-- Whatever function a text is matched with, its types can be read when those of the text can. -/
theorem exists_paramTypes {text : String}
    (h : ∀ p ∈ (Signature.ofText text).inputs, ∃ t, AbiType.ofText p.type = .ok t) :
    ∃ types, paramTypes (Descriptor.ofText text).inputs = .ok types := by
  apply exists_mapM_ok
  rcases Descriptor.ofText_cases text with ⟨e, he, hd⟩ | hd
  · rw [hd]
    intro p hp
    obtain ⟨t, ht, _⟩ := Param.isSpelled_iff.mp (WellKnown.spelled_inputs e he p hp)
    exact ⟨t, ht⟩
  · rw [hd]
    exact h

/-- A text whose types can be read has the selector that its types define exactly when they are
written as they are displayed: the canonical form takes them as they are written. -/
theorem canonical_eq_formOf (text : String)
    (h : ∀ p ∈ (Signature.ofText text).inputs, ∃ t, AbiType.ofText p.type = .ok t) :
    ∃ types, paramTypes (Descriptor.ofText text).inputs = .ok types ∧
      ((Descriptor.ofText text).canonical = formOf (Descriptor.ofText text).name types ↔
        ∀ p ∈ (Descriptor.ofText text).inputs, p.isSpelled = true) ∧
      ((∀ p ∈ (Descriptor.ofText text).inputs, p.isSpelled = true) →
        (Descriptor.ofText text).selector =
          Selector.ofSignature (formOf (Descriptor.ofText text).name types)) ∧
      ∀ other, (Descriptor.ofText other).name = (Descriptor.ofText text).name →
        paramTypes (Descriptor.ofText other).inputs = .ok types →
        ((Descriptor.ofText text).canonical = (Descriptor.ofText other).canonical ↔
          (Descriptor.ofText text).inputs.map Param.type =
            (Descriptor.ofText other).inputs.map Param.type) := by
  obtain ⟨types, htypes⟩ := exists_paramTypes h
  generalize Descriptor.ofText text = d at htypes
  have hform : d.canonical = formOf d.name types ↔ ∀ p ∈ d.inputs, p.isSpelled = true := by
    rw [formOf_eq, Descriptor.canonical, canonicalForm_inj htypes (paramTypes_displayed htypes),
      map_type_eq_iff htypes]
  refine ⟨types, htypes, hform, ?_, ?_⟩
  · intro hspelled
    rw [Descriptor.selector, hform.mpr hspelled]
  · intro other hname hother
    rw [Descriptor.canonical, Descriptor.canonical, hname, canonicalForm_inj htypes hother]

/-- The types are written as they are displayed, the blanks and the name around them apart. -/
theorem canonical_eq_formOf_flags :
    (∀ p ∈ (Signature.ofText "f(uint256, (bool,bytes1)[] flags)").inputs,
      ∃ t, AbiType.ofText p.type = .ok t) ∧
    (Descriptor.ofText "f(uint256, (bool,bytes1)[] flags)").canonical =
      formOf "f" [.uint 256, .array (.tuple [.bool, .fixedBytes 1])] ∧
    formOf "f" [.uint 256, .array (.tuple [.bool, .fixedBytes 1])] =
      "f(uint256,(bool,bytes1)[])" := by
  have hd : Descriptor.ofText "f(uint256, (bool,bytes1)[] flags)" =
      .parsed (Signature.ofText "f(uint256, (bool,bytes1)[] flags)") :=
    (Descriptor.Matches.unknown (by decide +kernel) (by decide +kernel) (by decide +kernel)).eq
  have hread : paramTypes (Signature.ofText "f(uint256, (bool,bytes1)[] flags)").inputs =
      .ok [.uint 256, .array (.tuple [.bool, .fixedBytes 1])] := by rfl
  have h : ∀ p ∈ (Signature.ofText "f(uint256, (bool,bytes1)[] flags)").inputs,
      ∃ t, AbiType.ofText p.type = .ok t := by
    intro p hp
    obtain ⟨t, _, ht⟩ := exists_of_mem_forall₂ (forall₂_paramTypes hread) hp
    exact ⟨t, ht⟩
  obtain ⟨types, htypes, hform, _, _⟩ := canonical_eq_formOf _ h
  rw [hd] at htypes hform
  obtain rfl := Except.ok.inj (hread.symm.trans htypes)
  have hname : (Descriptor.parsed (Signature.ofText "f(uint256, (bool,bytes1)[] flags)")).name =
      "f" := by decide +kernel
  rw [hname] at hform
  rw [hd]
  exact ⟨h, hform.mpr (by decide +kernel), by decide +kernel⟩

/-- A type that is written short is hashed as it is written. The calls of the two spellings carry
the same arguments, for functions of different selectors. -/
theorem canonical_ne_formOf_uint :
    paramTypes (Signature.ofText "f(uint)").inputs = .ok [.uint 256] ∧
    paramTypes (Descriptor.ofText "f(uint)").inputs = .ok [.uint 256] ∧
    paramTypes (Descriptor.ofText "f(uint256)").inputs = .ok [.uint 256] ∧
    (Descriptor.ofText "f(uint)").canonical = "f(uint)" ∧
    formOf (Descriptor.ofText "f(uint)").name [.uint 256] = "f(uint256)" ∧
    (Descriptor.ofText "f(uint)").selector ≠ (Descriptor.ofText "f(uint256)").selector := by
  have hshort : Descriptor.ofText "f(uint)" = .parsed (Signature.ofText "f(uint)") :=
    (Descriptor.Matches.unknown (by decide +kernel) (by decide +kernel) (by decide +kernel)).eq
  have hlong : Descriptor.ofText "f(uint256)" = .parsed (Signature.ofText "f(uint256)") :=
    (Descriptor.Matches.unknown (by decide +kernel) (by decide +kernel) (by decide +kernel)).eq
  rw [hshort, hlong]
  exact ⟨by rfl, by rfl, by rfl, by decide +kernel, by decide +kernel, by decide +kernel⟩

end Abi
end EvmInspect
