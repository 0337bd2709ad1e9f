import EvmInspect.Proofs.Registries

namespace EvmInspect

namespace Registry

theorem annotated_split : ∀ key ∈ annotatedKeys,
    ∃ rest, key.toList = "transfer(address to,".toList ++ ' ' :: rest := by
  have hstart : ∀ key ∈ annotatedKeys,
      key.toList.take 21 = "transfer(address to,".toList ++ [' '] := by decide
  intro key hkey
  refine ⟨key.toList.drop 21, ?_⟩
  rw [← List.take_append_drop 21 key.toList, hstart key hkey]
  simp

/-- A text that is an annotated key but for its blanks has a blank behind a comma, and only one
parenthesis before that. -/
theorem exists_blank_of_annotated {text : List Char} {key : String} (hkey : key ∈ annotatedKeys)
    (h : Text.collapse text = key.toList) :
    ∃ start inner b behind, text = start ++ '(' :: (inner ++ ',' :: b :: behind) ∧
      '(' ∉ start ∧ '(' ∉ inner ∧ Text.isBlank b = true := by
  obtain ⟨rest, hsplit⟩ := annotated_split key hkey
  rw [hsplit] at h
  obtain ⟨before, c, b, behind, rfl, hc, hb, hstart⟩ := Text.exists_blank_of_collapse h
  have hkept : before.filter (! Text.isBlank ·) ++ [c] = "transfer(addressto".toList ++ [','] := by
    have hfilter := Text.filter_collapse (before ++ [c])
    rw [hstart, List.filter_append, List.filter_cons_of_pos (by simp [hc]), List.filter_nil]
      at hfilter
    rw [← hfilter]
    decide
  obtain ⟨hbefore, hcomma⟩ := List.append_inj' hkept rfl
  obtain rfl : c = ',' := by simpa using hcomma
  have hopen : '(' ∈ before := by
    apply List.mem_of_mem_filter (p := (! Text.isBlank ·))
    rw [hbefore]
    decide
  have hcount : before.count '(' = 1 := by
    rw [← List.count_filter (p := (! Text.isBlank ·)) (by decide), hbefore]
    decide
  obtain ⟨start, inner, rfl, hplain⟩ := List.eq_append_cons_of_mem hopen
  have hinner : '(' ∉ inner := by
    rw [List.count_append, List.count_cons_self] at hcount
    exact List.count_eq_zero.mp (by omega)
  exact ⟨start, inner, b, behind, by simp, hplain, hinner, hb⟩

/-- No canonical form of what was read has a blank behind a comma between types. -/
theorem collapse_canonical_ne {s : Signature} (h : s.Legible) {key : String}
    (hkey : key ∈ annotatedKeys) : Text.collapse s.canonical.toList ≠ key.toList := by
  intro heq
  obtain ⟨start, inner, b, behind, htext, hplain, hinner, hb⟩ :=
    exists_blank_of_annotated hkey heq
  rw [Signature.canonical, Signature.toList_canonicalForm, Signature.toList_typeList] at htext
  -- the first parenthesis of the form stands behind the name
  rcases Text.marks_of_append_eq htext with ⟨_, hlist⟩ | ⟨_, rfl, _⟩ | ⟨_, hname, _⟩
  · obtain ⟨init, d, hend⟩ := (List.eq_nil_or_concat (b :: behind)).resolve_left (by simp)
    rw [List.concat_eq_append] at hend
    rw [hend, ← List.cons_append, ← List.append_assoc] at hlist
    obtain ⟨htypes, _⟩ := List.append_inj' hlist rfl
    obtain ⟨c, more, rfl, hfirst⟩ := Signature.starts_behind_comma h.inputs htypes.symm hinner
    obtain ⟨rfl, _⟩ := List.cons.inj hend
    exact absurd hb (by simp [hfirst])
  · simp at hplain
  · exact h.name_plain (by simp [hname])

theorem collapse_annotated : ∀ key ∈ annotatedKeys, Text.collapse key.toList = key.toList := by
  decide +kernel

def trimmed (text : String) : String :=
  String.ofList (Text.trim text.toList)

def collapsed (text : String) : String :=
  String.ofList (Text.collapse text.toList)

variable {r : Registry} {e : Entry} {text : String}

theorem lookup_eq (s : Signature) : r.lookup s =
    [s.raw, s.canonical, collapsed s.canonical, collapsed s.raw,
      String.ofList (Text.lowercase s.name.toList)].findSome? r.get? :=
  rfl

theorem get?_eq (r : Registry) (text : String) : r.get? text = r.find? (trimmed text) :=
  rfl

/-- Under keys that have a parenthesis nothing is found for a text without one. -/
theorem get?_eq_none (hkeys : ∀ e ∈ r.entries, '(' ∈ e.key.toList) (h : '(' ∉ text.toList) :
    r.get? text = none := by
  rw [get?_eq, find?_eq_none]
  intro e he hkey
  have hopen := hkeys e he
  rw [hkey, trimmed, String.toList_ofList] at hopen
  exact Text.not_mem_trim h hopen

theorem get?_canonical : r.get? (Signature.ofText text).canonical =
    r.find? (Signature.ofText text).canonical := by
  rw [get?, Text.trim_eq_self (Signature.legible_ofText text).trimmed_canonical,
    String.ofList_toList]

theorem get?_collapsed : r.get? (collapsed text) = r.find? (collapsed text) := by
  rw [get?, collapsed, String.toList_ofList, Text.trim_eq_self (Text.trimmed_collapse _)]

theorem lookup_of_trimmed (h : r.find? (trimmed text) = some e) :
    r.lookup (Signature.ofText text) = some e := by
  simp only [lookup_eq, List.findSome?_cons, Signature.raw_ofText, get?_eq r text, h]

end Registry

namespace WellKnown

open Registry (annotatedKeys trimmed collapsed)

/-- Where each way that leads to an entry has another one leading there, none leads without it. -/
theorem eq_none_of_some_imp {found other : Option Entry}
    (h : ∀ e, found = some e → other = some e) (hother : other = none) : found = none := by
  cases found with
  | none => rfl
  | some e =>
    rw [h e rfl] at hother
    cases hother

-- A registry that holds the entries, rather than the one that is made of them: nothing else about
-- it counts, and so the proofs do not make it.
variable {r : Registry} (hr : r.entries = entries) {e : Entry} {key text : String}
include hr

theorem find?_iff : r.find? key = some e ↔ e ∈ entries ∧ e.key = key := by
  rw [← hr]
  apply Registry.find?_eq_some
  rw [hr]
  exact nodup_keys

/-- A text that is a canonical key is read as the signature under it. -/
theorem find?_of_trimmed (h : r.find? (trimmed text) = some e) (ha : trimmed text ∉ annotatedKeys) :
    r.find? (Signature.ofText text).canonical = some e := by
  obtain ⟨he, hkey⟩ := (find?_iff hr).mp h
  have hread := canonical_ofText_key he
  rw [canonical_eq_key he (hkey ▸ ha), hkey, trimmed, Signature.ofText_trim] at hread
  exact (find?_iff hr).mpr ⟨he, hkey.trans hread.symm⟩

/-- Collapsing the canonical form leads to nothing new. -/
theorem find?_of_collapsed_canonical
    (h : r.find? (collapsed (Signature.ofText text).canonical) = some e) :
    r.find? (Signature.ofText text).canonical = some e := by
  have hs := Signature.legible_ofText text
  obtain ⟨he, hkey⟩ := (find?_iff hr).mp h
  have ha : e.key ∉ annotatedKeys := by
    intro ha
    apply Registry.collapse_canonical_ne hs ha
    rw [hkey, collapsed, String.toList_ofList]
  have hspace := not_mem_space_key he ha
  rw [hkey, collapsed, String.toList_ofList] at hspace
  rw [collapsed, Text.collapse_eq_trim hspace, Text.trim_eq_self hs.trimmed_canonical,
    String.ofList_toList] at h
  exact h

/-- Collapsing the text leads to annotated keys, and else where the text itself leads. -/
theorem find?_of_collapsed (h : r.find? (collapsed text) = some e)
    (ha : collapsed text ∉ annotatedKeys) : r.find? (trimmed text) = some e := by
  obtain ⟨he, hkey⟩ := (find?_iff hr).mp h
  have hspace := not_mem_space_key he (hkey ▸ ha)
  rw [hkey, collapsed, String.toList_ofList] at hspace
  rw [collapsed, Text.collapse_eq_trim hspace] at h
  exact h

theorem get?_lowercase {s : Signature} (hs : s.Legible) :
    r.get? (String.ofList (Text.lowercase s.name.toList)) = none := by
  apply Registry.get?_eq_none
  · rw [hr]
    exact fun e he => open_mem_key he
  · rw [String.toList_ofList]
    exact (Text.lowered_lowercase _).not_mem hs.name_plain

/-- Unless the text is an annotated key, it is looked up as the signature that is read from it. -/
theorem lookup_of_canonical (ha : trimmed text ∉ annotatedKeys)
    (h : r.find? (Signature.ofText text).canonical = some e) :
    r.lookup (Signature.ofText text) = some e := by
  cases hplain : r.find? (trimmed text) with
  | some found =>
    have hfound := find?_of_trimmed hr hplain ha
    rw [Registry.lookup_of_trimmed hplain, ← hfound, h]
  | none =>
    simp only [Registry.lookup_eq, List.findSome?_cons, Signature.raw_ofText,
      Registry.get?_eq r text, hplain, Registry.get?_canonical, h]

/-- A text that is read as no key has at most an annotated key for its collapsed form. -/
theorem lookup_of_none (ha : trimmed text ∉ annotatedKeys)
    (h : r.find? (Signature.ofText text).canonical = none) :
    r.lookup (Signature.ofText text) =
      if collapsed text ∈ annotatedKeys then r.find? (collapsed text) else none := by
  have hplain : r.find? (trimmed text) = none :=
    eq_none_of_some_imp (fun e he => find?_of_trimmed hr he ha) h
  have hcanonical : r.find? (collapsed (Signature.ofText text).canonical) = none :=
    eq_none_of_some_imp (fun e he => find?_of_collapsed_canonical hr he) h
  have hrest : r.lookup (Signature.ofText text) = r.find? (collapsed text) := by
    have hlower := get?_lowercase hr (Signature.legible_ofText text)
    simp only [Registry.lookup_eq, List.findSome?_cons, List.findSome?_nil, Signature.raw_ofText,
      Registry.get?_eq r text, hplain, Registry.get?_canonical, h, Registry.get?_collapsed,
      hcanonical, hlower]
    cases r.find? (collapsed text) <;> rfl
  rw [hrest]
  split
  · rfl
  · rename_i hc
    exact eq_none_of_some_imp (fun e he => find?_of_collapsed hr he hc) hplain

end WellKnown

namespace Descriptor

open Registry (annotatedKeys trimmed collapsed)

/-- What a text stands for: the entry of an annotated key that it is, else the entry of its
canonical form, else the entry of an annotated key that it is but for its blanks, and else no more
than what it says. -/
inductive Matches (text : String) : Descriptor → Prop
  | annotated {e : Entry} (he : e ∈ WellKnown.entries)
      (hkey : e.key = trimmed text) (ha : e.key ∈ annotatedKeys) :
      Matches text (.wellKnown e)
  | canonical {e : Entry} (ha : trimmed text ∉ annotatedKeys)
      (he : e ∈ WellKnown.entries) (hkey : e.key = (Signature.ofText text).canonical) :
      Matches text (.wellKnown e)
  | respaced {e : Entry} (ha : trimmed text ∉ annotatedKeys)
      (hc : ∀ d ∈ WellKnown.entries, d.key ≠ (Signature.ofText text).canonical)
      (he : e ∈ WellKnown.entries) (hkey : e.key = collapsed text)
      (hk : e.key ∈ annotatedKeys) :
      Matches text (.wellKnown e)
  | unknown (ha : trimmed text ∉ annotatedKeys)
      (hc : ∀ d ∈ WellKnown.entries, d.key ≠ (Signature.ofText text).canonical)
      (hk : collapsed text ∉ annotatedKeys) :
      Matches text (.parsed (Signature.ofText text))

variable {text : String}

theorem ofText_eq : ofText = fun text =>
    (WellKnown.registry.lookup (Signature.ofText text)).elim (.parsed (Signature.ofText text))
      .wellKnown := by
  delta ofText
  funext text
  dsimp only
  generalize WellKnown.registry.lookup (Signature.ofText text) = found
  cases found <;> rfl

theorem ofText_of_lookup {found : Option Entry}
    (h : WellKnown.registry.lookup (Signature.ofText text) = found) :
    ofText text = found.elim (.parsed (Signature.ofText text)) .wellKnown :=
  h ▸ congrFun ofText_eq text

theorem find?_canonical_eq_none :
    WellKnown.registry.find? (Signature.ofText text).canonical = none ↔
      ∀ d ∈ WellKnown.entries, d.key ≠ (Signature.ofText text).canonical := by
  rw [Registry.find?_eq_none, WellKnown.entries_registry]

/-- What a text stands for is what it is described as. -/
theorem Matches.eq {d : Descriptor} (h : Matches text d) : ofText text = d := by
  have hr := WellKnown.entries_registry
  cases h with
  | annotated he hkey _ =>
    have hfound := (WellKnown.find?_iff hr).mpr ⟨he, hkey⟩
    exact ofText_of_lookup (Registry.lookup_of_trimmed hfound)
  | canonical ha he hkey =>
    have hfound := (WellKnown.find?_iff hr).mpr ⟨he, hkey⟩
    exact ofText_of_lookup (WellKnown.lookup_of_canonical hr ha hfound)
  | respaced ha hc he hkey hk =>
    have hlookup := WellKnown.lookup_of_none hr ha (find?_canonical_eq_none.mpr hc)
    rw [← hkey, if_pos hk, (WellKnown.find?_iff hr).mpr ⟨he, rfl⟩] at hlookup
    exact ofText_of_lookup hlookup
  | unknown ha hc hk =>
    have hlookup := WellKnown.lookup_of_none hr ha (find?_canonical_eq_none.mpr hc)
    rw [if_neg hk] at hlookup
    exact ofText_of_lookup hlookup

theorem exists_matches (text : String) : ∃ d, Matches text d := by
  by_cases ha : trimmed text ∈ annotatedKeys
  · obtain ⟨e, he, hkey⟩ := WellKnown.annotated_entries _ ha
    exact ⟨_, .annotated he hkey (hkey ▸ ha)⟩
  · cases hc : WellKnown.registry.find? (Signature.ofText text).canonical with
    | some e =>
      obtain ⟨he, hkey⟩ := (WellKnown.find?_iff WellKnown.entries_registry).mp hc
      exact ⟨_, .canonical ha he hkey⟩
    | none =>
      rw [find?_canonical_eq_none] at hc
      by_cases hk : collapsed text ∈ annotatedKeys
      · obtain ⟨e, he, hkey⟩ := WellKnown.annotated_entries _ hk
        exact ⟨_, .respaced ha hc he hkey (hkey ▸ hk)⟩
      · exact ⟨_, .unknown ha hc hk⟩

theorem matches_ofText (text : String) : Matches text (ofText text) := by
  obtain ⟨d, h⟩ := exists_matches text
  rw [h.eq]
  exact h

/-- A text stands for a well-known function or for the signature that is read from it. -/
theorem ofText_cases (text : String) :
    (∃ e ∈ WellKnown.entries, ofText text = .wellKnown e) ∨
      ofText text = .parsed (Signature.ofText text) := by
  obtain ⟨d, h⟩ := exists_matches text
  rw [h.eq]
  cases h with
  | annotated he _ _ | canonical _ he _ | respaced _ _ he _ _ => exact Or.inl ⟨_, he, rfl⟩
  | unknown _ _ _ => exact Or.inr rfl

theorem collapsed_of_trimmed (h : trimmed text ∈ annotatedKeys) :
    collapsed text = trimmed text := by
  have hcollapse := Registry.collapse_annotated _ h
  rw [trimmed, String.toList_ofList, Text.collapse_trim] at hcollapse
  rw [collapsed, hcollapse, trimmed]

/-- Only an annotated key leads to a signature other than the one that is read. -/
theorem canonical_ofText (h : collapsed text ∉ annotatedKeys) :
    (ofText text).canonical = (Signature.ofText text).canonical := by
  obtain ⟨d, hmatches⟩ := exists_matches text
  rw [hmatches.eq]
  cases hmatches with
  | annotated he hkey ha =>
    rw [hkey] at ha
    exact absurd (collapsed_of_trimmed ha ▸ ha) h
  | @canonical e _ he hkey =>
    have ha : e.key ∉ annotatedKeys := by
      intro ha
      apply Registry.collapse_canonical_ne (Signature.legible_ofText text) ha
      rw [← hkey]
      exact Registry.collapse_annotated _ ha
    exact (WellKnown.canonical_eq_key he ha).trans hkey
  | respaced _ _ _ hkey hk => exact absurd (hkey ▸ hk) h
  | unknown _ _ _ => rfl

/-- Matching never turns a text into another function. -/
theorem ofText_matches (text : String) :
    (∀ d, ofText text = d ↔ Matches text d) ∧
      ∀ e, ofText text = .wellKnown e → collapsed text ∉ annotatedKeys →
        e.canonical = (Signature.ofText text).canonical ∧
          (ofText text).selector = Selector.ofSignature (Signature.ofText text).canonical := by
  refine ⟨fun d => ⟨?_, Matches.eq⟩, ?_⟩
  · rintro rfl
    exact matches_ofText text
  · intro e he ha
    have hcanonical := canonical_ofText ha
    refine ⟨?_, congrArg Selector.ofSignature hcanonical⟩
    rw [he] at hcanonical
    exact hcanonical

/-- Another name of a parameter leads to the entry of the canonical form; blanks of another kind
hide the type from it, and lead to the entry of the annotated key. -/
theorem ofText_matches_renamed :
    (∃ e, ofText "transfer(address dst, uint256 wad)" = .wellKnown e ∧
      e.key = "transfer(address,uint256)" ∧
      e.canonical = (Signature.ofText "transfer(address dst, uint256 wad)").canonical) ∧
    ∃ e, ofText "transfer(address\tto, uint256  tokenID)" = .wellKnown e ∧
      e.key = "transfer(address to, uint256 tokenID)" := by
  constructor
  · obtain ⟨e, he, hkey⟩ : ∃ e ∈ WellKnown.entries, e.key = "transfer(address,uint256)" := by
      decide +kernel
    have hread : (Signature.ofText "transfer(address dst, uint256 wad)").canonical =
        "transfer(address,uint256)" := by decide +kernel
    obtain ⟨hmatches, hsame⟩ := ofText_matches "transfer(address dst, uint256 wad)"
    have hd := (hmatches (.wellKnown e)).mpr
      (.canonical (by decide +kernel) he (hkey.trans hread.symm))
    exact ⟨e, hd, hkey, (hsame e hd (by decide +kernel)).1⟩
  · obtain ⟨e, he, hkey⟩ := WellKnown.annotated_entries "transfer(address to, uint256 tokenID)"
      (by decide)
    have hcollapsed : collapsed "transfer(address\tto, uint256  tokenID)" =
        "transfer(address to, uint256 tokenID)" := by decide +kernel
    have hnone : ∀ d ∈ WellKnown.entries,
        d.key ≠ (Signature.ofText "transfer(address\tto, uint256  tokenID)").canonical := by
      decide +kernel
    have hd := ((ofText_matches "transfer(address\tto, uint256  tokenID)").1 (.wellKnown e)).mpr
      (.respaced (by decide +kernel) hnone he (hkey.trans hcollapsed.symm) (hkey ▸ by decide))
    exact ⟨e, hd, hkey⟩

end Descriptor

end EvmInspect
