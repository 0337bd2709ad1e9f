import EvmInspect.Proofs.Canonical

namespace EvmInspect

namespace Text

theorem Balanced.trim {text : List Char} (h : Balanced text) : Balanced (Text.trim text) := by
  obtain ⟨before, behind, htext, hbefore, hbehind⟩ := exists_gaps text
  rw [htext, Balanced, opened?_append, (entry_of_blank hbefore).balanced, Option.bind_some,
    opened?_append] at h
  obtain ⟨depth, hopened, hend⟩ := Option.bind_eq_some_iff.mp h
  rw [← Nat.zero_add depth, opened?_add (entry_of_blank hbehind).balanced] at hend
  obtain rfl : depth = 0 := by simpa using hend
  exact hopened

theorem Entry.trim {text : List Char} (h : Entry text) : Entry (Text.trim text) := by
  obtain ⟨before, behind, htext, hbefore, _⟩ := exists_gaps text
  have hcommas := h.commas
  rw [htext] at hcommas
  exact ⟨h.balanced.trim, hcommas.inside (entry_of_blank hbefore).balanced⟩

theorem opened?_le {text : List Char} (hopen : '(' ∉ text) {depth inner : Nat}
    (h : opened? depth text = some inner) : inner ≤ depth := by
  induction text generalizing depth with
  | nil => simp_all
  | cons c text ih =>
    rw [List.mem_cons, not_or] at hopen
    by_cases hc : c = ')'
    · cases depth with
      | zero => simp [hc] at h
      | succ depth =>
        rw [hc, opened?_close] at h
        exact Nat.le_succ_of_le (ih hopen.2 h)
    · rw [opened?_plain (Ne.symm hopen.1) hc] at h
      exact ih hopen.2 h

/-- In a text that closes what it opens, the list behind its first parenthesis does so too. -/
theorem balanced_listBody {name list : List Char} (hname : '(' ∉ name)
    (h : Balanced (name ++ '(' :: list)) : Balanced (listBody list).1 := by
  rw [Balanced, opened?_append] at h
  obtain ⟨depth, hdepth, hlist⟩ := Option.bind_eq_some_iff.mp h
  obtain rfl : depth = 0 := Nat.le_zero.mp (opened?_le hname hdepth)
  rw [opened?_open] at hlist
  obtain ⟨body, rest, hclosing⟩ := exists_closing? hlist
  rw [listBody, hclosing]
  exact (eq_append_of_closing? hclosing).2

theorem exists_opened?_of_append {text rest : List Char} {depth inner : Nat}
    (h : opened? depth (text ++ rest) = some inner) :
    ∃ middle, opened? depth text = some middle := by
  rw [opened?_append] at h
  obtain ⟨middle, hmiddle, _⟩ := Option.bind_eq_some_iff.mp h
  exact ⟨middle, hmiddle⟩

theorem count_trim {mark : Char} (h : isBlank mark = false) (text : List Char) :
    (trim text).count mark = text.count mark := by
  obtain ⟨before, behind, htext, hbefore, hbehind⟩ := exists_gaps text
  have hnone {gap : List Char} (hgap : ∀ c ∈ gap, isBlank c = true) : gap.count mark = 0 := by
    apply List.count_eq_zero.mpr
    intro hmem
    exact absurd (hgap mark hmem) (by simp [h])
  conv_rhs => rw [htext, List.count_append, List.count_append, hnone hbefore, hnone hbehind,
    Nat.zero_add, Nat.add_zero]

end Text

namespace Param

/-- A parameter whose type is cut from an entry of a list, at a space if there is one. -/
structure Cut (p : Param) : Prop where
  spaceless : ' ' ∉ p.type.toList
  commas : Text.CommasInside p.type.toList
  opened : ∃ depth, Text.opened? 0 p.type.toList = some depth

/-- A parameter whose type closes what it opens, and has no blank at its ends. -/
structure Whole (p : Param) : Prop where
  balanced : Text.Balanced p.type.toList
  trimmed : Text.Trimmed p.type.toList

instance (p : Param) : Decidable p.Whole :=
  decidable_of_iff (Text.Balanced p.type.toList ∧ Text.Trimmed p.type.toList)
    ⟨fun ⟨hb, ht⟩ => ⟨hb, ht⟩, fun ⟨hb, ht⟩ => ⟨hb, ht⟩⟩

variable {p : Param} {params : List Param}

/-- The text of a parameter begins with the type, which has no space. -/
theorem exists_type_append (text : List Char) :
    ∃ rest, text = (read text).type.toList ++ rest ∧ ' ' ∉ (read text).type.toList := by
  unfold read
  split
  · rename_i hspace
    refine ⟨[], by simp, ?_⟩
    simpa using Text.not_mem_of_around? hspace
  · rename_i type name hspace
    obtain ⟨htext, hnone⟩ := Text.eq_append_of_around? hspace
    exact ⟨' ' :: name, by simp [htext], by simpa using hnone⟩

theorem cut_read {text : List Char} (h : Text.Entry text) : (read text).Cut := by
  obtain ⟨rest, htext, hspace⟩ := exists_type_append text
  obtain ⟨hbalanced, hcommas⟩ := h
  refine ⟨hspace, ?_, ?_⟩
  · rw [htext] at hcommas
    exact Text.CommasInside.inside (Text.opened?_nil 0) hcommas
  · rw [htext] at hbalanced
    exact Text.exists_opened?_of_append hbalanced

theorem cut_of_mem_readList {body : List Char} (h : Text.Balanced body) (hp : p ∈ readList body) :
    p.Cut := by
  obtain ⟨text, htext, rfl⟩ := List.mem_map.mp hp
  obtain ⟨part, hpart, rfl⟩ := List.mem_map.mp (List.mem_of_mem_filter htext)
  exact cut_read (Text.entry_of_mem_splitTopLevel h hpart).trim

/-- What the types open together is nothing exactly when each of them closes what it opens. -/
theorem opened?_typeList (h : ∀ p ∈ params, p.Cut) :
    ∃ depth, Text.opened? 0 (Signature.typeList params).toList = some depth ∧
      (depth = 0 → ∀ p ∈ params, Text.Balanced p.type.toList) := by
  rw [Signature.toList_typeList]
  induction params with
  | nil => exact ⟨0, Text.opened?_nil 0, by simp⟩
  | cons p params ih =>
    obtain ⟨hp, hparams⟩ := List.forall_mem_cons.mp h
    obtain ⟨first, hfirst⟩ := hp.opened
    obtain ⟨depth, hdepth, hbalanced⟩ := ih hparams
    cases params with
    | nil =>
      refine ⟨first, by simpa using hfirst, ?_⟩
      rintro rfl
      exact List.forall_mem_singleton.mpr hfirst
    | cons q params =>
      refine ⟨depth + first, ?_, ?_⟩
      · have hrest := Text.opened?_add hdepth first
        rw [Nat.zero_add, List.map_cons] at hrest
        rw [List.map_cons, List.map_cons, List.intercalate_cons_cons, List.append_assoc,
          Text.opened?_append, hfirst, Option.bind_some, List.singleton_append,
          Text.opened?_plain (by decide) (by decide), hrest]
      · intro hzero
        obtain ⟨rfl, rfl⟩ : depth = 0 ∧ first = 0 := by omega
        exact List.forall_mem_cons.mpr ⟨hfirst, hbalanced rfl⟩

theorem not_mem_typeList {mark : Char} (hmark : mark ≠ ',')
    (h : ∀ p ∈ params, mark ∉ p.type.toList) : mark ∉ (Signature.typeList params).toList := by
  have hother : ∀ c ∈ [','].intercalate (params.map fun p => p.type.toList), c ≠ mark := by
    refine Text.forall_mem_intercalate (List.forall_mem_singleton.mpr hmark.symm) ?_
    intro text ht c hc
    obtain ⟨p, hp, rfl⟩ := List.mem_map.mp ht
    rintro rfl
    exact h p hp hc
  rw [Signature.toList_typeList]
  exact fun hmem => hother mark hmem rfl

/-- A list without spaces is read as its parts, each without the blanks around it. -/
theorem types_readList {body : List Char} (h : ' ' ∉ body) :
    (readList body).map (fun p => p.type.toList) =
      ((Text.splitTopLevel body).map Text.trim).filter (· ≠ []) := by
  have hread : ∀ text ∈ ((Text.splitTopLevel body).map Text.trim).filter (· ≠ []),
      (read text).type.toList = text := by
    intro text htext
    obtain ⟨part, hpart, rfl⟩ := List.mem_map.mp (List.mem_of_mem_filter htext)
    have hspace : ' ' ∉ Text.trim part := by
      apply Text.not_mem_trim
      intro hmem
      exact h ((Text.infix_of_mem_splitTopLevel hpart).subset hmem)
    rw [read, Text.around?_eq_none hspace, String.toList_ofList]
  rw [readList, List.map_map]
  exact (List.map_congr_left hread).trans (List.map_id _)

/-- Reading a list without spaces keeps the parentheses in it. -/
theorem count_typeList_readList {body : List Char} (h : ' ' ∉ body) {mark : Char}
    (hblank : Text.isBlank mark = false) (hmark : mark ≠ ',') :
    (Signature.typeList (readList body)).toList.count mark = body.count mark := by
  have htrim : ((Text.splitTopLevel body).map Text.trim).flatten.count mark =
      (Text.splitTopLevel body).flatten.count mark := by
    rw [List.count_flatten, List.count_flatten, List.map_map]
    refine congrArg List.sum (List.map_congr_left fun part _ => ?_)
    exact Text.count_trim hblank part
  have hcomma : mark ∉ [','] := by simpa using hmark
  rw [Signature.toList_typeList, Text.count_intercalate hcomma, types_readList h,
    List.flatten_filter_ne_nil, htrim, ← Text.count_intercalate hcomma, Text.splitTopLevel,
    Text.intercalate_splitOutside]

/-- Types that can stand in a list are read from it without the blanks at their ends. -/
theorem types_readList_typeList (hentry : ∀ p ∈ params, Text.Entry p.type.toList)
    (hlegible : ∀ p ∈ params, p.Legible) (hspace : ∀ p ∈ params, ' ' ∉ p.type.toList) :
    (readList (Signature.typeList params).toList).map (fun p => p.type.toList) =
      params.map fun p => Text.trim p.type.toList := by
  by_cases hne : params = []
  · rw [hne]
    rfl
  · have hkept : ∀ text ∈ params.map fun p => Text.trim p.type.toList,
        decide (text ≠ []) = true := by
      refine List.forall_mem_map.mpr fun p hp => decide_eq_true fun hnil => ?_
      obtain ⟨c, rest, hstarts, hc⟩ := (hlegible p hp).starts
      have hblank := Text.isBlank_of_trim_eq_nil hnil c (by simp [hstarts])
      rw [hc] at hblank
      cases hblank
    rw [types_readList (not_mem_typeList (by decide) hspace), Signature.toList_typeList,
      Text.splitTopLevel_intercalate (List.forall_mem_map.mpr hentry) (by simpa using hne),
      List.map_map]
    exact List.filter_eq_self.mpr hkept

end Param

namespace Signature

variable {s : Signature}

/-- What is read from a canonical form. -/
theorem Legible.ofText_canonical (h : s.Legible) :
    (ofText s.canonical).name = s.name ∧ (ofText s.canonical).inputs =
      Param.readList (Text.listBody ((typeList s.inputs).toList ++ [')'])).1 := by
  have htrim := Text.trim_eq_self h.trimmed_canonical
  rw [canonical, toList_canonicalForm] at htrim
  rw [ofText, canonical, toList_canonicalForm, read]
  simp only [htrim, Text.around?_append h.name_plain, Text.trim_eq_self h.name_trimmed,
    String.ofList_toList, and_self]

/-- The parameters of a text whose parentheses match are cut from entries of its list. -/
theorem cut_inputs {text : String} (h : Text.Balanced text.toList) :
    ∀ p ∈ (ofText text).inputs, p.Cut := by
  unfold ofText read
  dsimp only
  split
  · intro p hp
    cases hp
  · rename_i name list hopen
    obtain ⟨htext, hname⟩ := Text.eq_append_of_around? hopen
    have htrim := h.trim
    rw [htext] at htrim
    exact fun p hp => Param.cut_of_mem_readList (Text.balanced_listBody hname htrim) hp

/-- Types that close what they open are read from the form, without the blanks at their ends. -/
theorem types_ofText_canonical (h : s.Legible) (hcut : ∀ p ∈ s.inputs, p.Cut)
    (hbalanced : ∀ p ∈ s.inputs, Text.Balanced p.type.toList) :
    (ofText s.canonical).inputs.map (fun p => p.type.toList) =
      s.inputs.map fun p => Text.trim p.type.toList := by
  have hentries : ∀ p ∈ s.inputs, Text.Entry p.type.toList := fun p hp =>
    ⟨hbalanced p hp, (hcut p hp).commas⟩
  have hlist : Text.Balanced (typeList s.inputs).toList := by
    rw [toList_typeList]
    exact Text.balanced_intercalate (List.forall_mem_map.mpr hentries)
  rw [h.ofText_canonical.2, Text.listBody_append hlist]
  exact Param.types_readList_typeList hentries h.inputs fun p hp => (hcut p hp).spaceless

/-- When a type leaves something open, the list of the form is not closed. The parenthesis at its
end is read as part of a type. -/
theorem typeList_ofText_canonical_ne (h : s.Legible) (hcut : ∀ p ∈ s.inputs, p.Cut)
    (hopen : ¬ ∀ p ∈ s.inputs, Text.Balanced p.type.toList) :
    typeList (ofText s.canonical).inputs ≠ typeList s.inputs := by
  obtain ⟨depth, hdepth, hbalanced⟩ := Param.opened?_typeList hcut
  cases depth with
  | zero => exact absurd (hbalanced rfl) hopen
  | succ depth =>
    have hbody : Text.listBody ((typeList s.inputs).toList ++ [')']) =
        ((typeList s.inputs).toList ++ [')'], []) := by
      rw [Text.listBody, Text.closing?_append hdepth]
      rfl
    have hspace : ' ' ∉ (typeList s.inputs).toList ++ [')'] := by
      have htypes := Param.not_mem_typeList (by decide) fun p hp => (hcut p hp).spaceless
      simp [htypes]
    have hblank : Text.isBlank ')' = false := by decide
    -- the types that are read have one closing parenthesis more
    have hcount := Param.count_typeList_readList hspace hblank (by decide)
    intro heq
    rw [h.ofText_canonical.2, hbody] at heq
    rw [heq, List.count_append, List.count_singleton_self] at hcount
    omega

/-- Of a form whose types close what they open, the types are read as they were when no blank stands
at their ends. -/
theorem types_ofText_canonical_iff (h : s.Legible) (hcut : ∀ p ∈ s.inputs, p.Cut)
    (hbalanced : ∀ p ∈ s.inputs, Text.Balanced p.type.toList) :
    ((ofText s.canonical).inputs.map Param.type = s.inputs.map Param.type ↔
      ∀ p ∈ s.inputs, Text.Trimmed p.type.toList) ∧
    (typeList (ofText s.canonical).inputs = typeList s.inputs ↔
      ∀ p ∈ s.inputs, Text.Trimmed p.type.toList) := by
  have htypes := types_ofText_canonical h hcut hbalanced
  have htrimmed : (s.inputs.map fun p => Text.trim p.type.toList) =
      s.inputs.map (fun p => p.type.toList) ↔ ∀ p ∈ s.inputs, Text.Trimmed p.type.toList := by
    rw [List.map_inj_left]
    refine forall₂_congr fun p _ => ⟨fun heq => ?_, Text.trim_eq_self⟩
    rw [← heq]
    exact Text.trimmed_trim _
  constructor
  · rw [Param.map_type_inj, htypes, htrimmed]
  · have hentries : ∀ p ∈ s.inputs, Text.Entry p.type.toList := fun p hp =>
      ⟨hbalanced p hp, (hcut p hp).commas⟩
    have hread : ∀ p ∈ s.inputs, Text.Entry (Text.trim p.type.toList) := fun p hp =>
      (hentries p hp).trim
    rw [← String.toList_inj, toList_typeList, toList_typeList, htypes,
      Text.intercalate_inj (List.forall_mem_map.mpr hread) (List.forall_mem_map.mpr hentries)
        (by simp), htrimmed]

/-- The canonical form of a text whose parentheses match is read with the same types exactly when
each type closes what it opens and has no blank at its end. -/
theorem canonical_stable_iff {text : String} (h : Text.Balanced text.toList) :
    (ofText (ofText text).canonical).name = (ofText text).name ∧
    ((ofText (ofText text).canonical).inputs.map Param.type = (ofText text).inputs.map Param.type ↔
      ∀ p ∈ (ofText text).inputs, p.Whole) ∧
    ((ofText (ofText text).canonical).canonical = (ofText text).canonical ↔
      ∀ p ∈ (ofText text).inputs, p.Whole) := by
  have hlegible := legible_ofText text
  have hcut := cut_inputs h
  generalize ofText text = s at hlegible hcut
  have hname := hlegible.ofText_canonical.1
  have hform : (ofText s.canonical).canonical = s.canonical ↔
      typeList (ofText s.canonical).inputs = typeList s.inputs := by
    rw [canonical, hname]
    exact canonicalForm_inj_typeList
  rw [hform]
  refine ⟨hname, ?_⟩
  by_cases hbalanced : ∀ p ∈ s.inputs, Text.Balanced p.type.toList
  · have hwhole : (∀ p ∈ s.inputs, p.Whole) ↔ ∀ p ∈ s.inputs, Text.Trimmed p.type.toList :=
      forall₂_congr fun p hp => ⟨fun hw => hw.trimmed, fun ht => ⟨hbalanced p hp, ht⟩⟩
    rw [hwhole]
    exact types_ofText_canonical_iff hlegible hcut hbalanced
  · have hne := typeList_ofText_canonical_ne hlegible hcut hbalanced
    have hopen : ¬ ∀ p ∈ s.inputs, p.Whole := fun hw =>
      hbalanced fun p hp => (hw p hp).balanced
    refine ⟨iff_of_false (fun htypes => hne ?_) hopen, iff_of_false hne hopen⟩
    rw [typeList, htypes, typeList]

theorem canonical_stable_iff_orders :
    Text.Balanced "submit( (address,(uint8,\tbool)[2])[] orders,\n bytes )".toList ∧
    (ofText "submit( (address,(uint8,\tbool)[2])[] orders,\n bytes )").canonical =
      "submit((address,(uint8,\tbool)[2])[],bytes)" ∧
    (ofText "submit((address,(uint8,\tbool)[2])[],bytes)").canonical =
      "submit((address,(uint8,\tbool)[2])[],bytes)" := by
  have hbalanced :
      Text.Balanced "submit( (address,(uint8,\tbool)[2])[] orders,\n bytes )".toList := by
    decide +kernel
  have hform : (ofText "submit( (address,(uint8,\tbool)[2])[] orders,\n bytes )").canonical =
      "submit((address,(uint8,\tbool)[2])[],bytes)" := by decide +kernel
  have hwhole : ∀ p ∈ (ofText "submit( (address,(uint8,\tbool)[2])[] orders,\n bytes )").inputs,
      p.Whole := by decide +kernel
  have hstable := (canonical_stable_iff hbalanced).2.2.mpr hwhole
  rw [hform] at hstable
  exact ⟨hbalanced, hform, hstable⟩

/-- A space behind a comma cuts a tuple apart, and a tab before a space stays with the type. -/
theorem canonical_unstable_of_space :
    Text.Balanced "f((uint256, bool) x)".toList ∧
    (ofText "f((uint256, bool) x)").inputs = [⟨some "bool) x", "(uint256,"⟩] ∧
    (ofText "f((uint256, bool) x)").canonical = "f((uint256,)" ∧
    (ofText "f((uint256,)").inputs = [⟨none, "(uint256,)"⟩] ∧
    (ofText "f((uint256,)").canonical = "f((uint256,))" ∧
    (ofText "f(uint256\t x)").canonical = "f(uint256\t)" ∧
    (ofText "f(uint256\t)").canonical = "f(uint256)" := by
  decide +kernel

end Signature
end EvmInspect
