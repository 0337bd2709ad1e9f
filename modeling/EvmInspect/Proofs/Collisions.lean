import EvmInspect.Proofs.Registration
import EvmInspect.Selector.Numbers

namespace EvmInspect

namespace Registry

variable {entries earlier later : List Entry} {r : Registry} {e : Entry}

/-- The selector of an entry under a canonical key leads somewhere, though not always to it. -/
theorem exists_bySelector? (he : e ∈ entries) (hc : e.isCanonical = true) :
    ∃ d, (holding entries).bySelector? e.selector = some d := by
  rw [bySelector?_holding]
  cases hlast : (entries.filter (·.isIndexedBy e.selector)).getLast? with
  | none =>
    have hnone := List.filter_eq_nil_iff.mp (List.getLast?_eq_none_iff.mp hlast) e he
    exact absurd (Entry.isIndexedBy_iff.mpr ⟨hc, rfl⟩) hnone
  | some d => exact ⟨d, rfl⟩

/-- An entry is found by its selector unless one behind it takes its place. -/
theorem Lawful.bySelector?_iff (lawful : Lawful (earlier ++ e :: later))
    (hc : e.isCanonical = true) :
    (holding (earlier ++ e :: later)).bySelector? e.selector = some e ↔
      ∀ d ∈ later, d.isCanonical = true → d.selector ≠ e.selector := by
  have hnew : e ∉ later := by
    have hdistinct := lawful.distinct.of_map
    exact (List.nodup_cons.mp (List.nodup_append.mp hdistinct).2.1).1
  have hsame : e.isIndexedBy e.selector = true := Entry.isIndexedBy_iff.mpr ⟨hc, rfl⟩
  rw [bySelector?_holding, List.filter_append, List.filter_cons, if_pos hsame,
    List.getLast?_append, List.getLast?_cons, Option.some_or, Option.some.injEq]
  constructor
  · intro hlast d hd hdc hsel
    cases hl : (later.filter (·.isIndexedBy e.selector)).getLast? with
    | none =>
      have hnone := List.filter_eq_nil_iff.mp (List.getLast?_eq_none_iff.mp hl) d hd
      exact hnone (Entry.isIndexedBy_iff.mpr ⟨hdc, hsel⟩)
    | some other =>
      rw [hl, Option.getD_some] at hlast
      exact hnew (hlast ▸ List.mem_of_mem_filter (List.mem_of_getLast? hl))
  · intro hother
    have hnil : later.filter (·.isIndexedBy e.selector) = [] := by
      apply List.filter_eq_nil_iff.mpr
      intro d hd hindexed
      obtain ⟨hdc, hsel⟩ := Entry.isIndexedBy_iff.mp hindexed
      exact hother d hd hdc hsel
    rw [hnil]
    rfl

theorem Lawful.all_found_iff (lawful : Lawful entries) :
    (∀ e ∈ entries, e.isCanonical = true → (holding entries).bySelector? e.selector = some e) ↔
      ((entries.filter Entry.isCanonical).map Entry.selector).Nodup := by
  have hn : (entries.filter Entry.isCanonical).Nodup := lawful.distinct.of_map.filter _
  rw [List.nodup_map_iff_inj_on hn]
  simp only [List.mem_filter]
  constructor
  · rintro found d ⟨hd, hdc⟩ e ⟨he, hec⟩ hsame
    have hfound := found d hd hdc
    rw [hsame, found e he hec] at hfound
    exact (Option.some.inj hfound).symm
  · intro inj e he hc
    obtain ⟨d, hd⟩ := exists_bySelector? he hc
    obtain ⟨hmem, hdc, hsel⟩ := indexed_of_bySelector? hd
    rw [hd, inj d ⟨hmem, hdc⟩ e ⟨he, hc⟩ hsel]

/-- A selector leads to the last entry that has it and stands under a canonical key, so all of these
are found exactly if their selectors are different. -/
theorem selector_finds_last (h : ofEntries entries = .ok r) :
    (∀ s, r.bySelector? s = (entries.filter (·.isIndexedBy s)).getLast?) ∧
    (∀ earlier e later, entries = earlier ++ e :: later → e.isCanonical = true →
      (r.bySelector? e.selector = some e ↔
        ∀ d ∈ later, d.isCanonical = true → d.selector ≠ e.selector)) ∧
    ((∀ e ∈ entries, e.isCanonical = true → r.bySelector? e.selector = some e) ↔
      ((entries.filter Entry.isCanonical).map Entry.selector).Nodup) := by
  obtain ⟨lawful, rfl⟩ := ofEntries_eq_ok.mp h
  refine ⟨bySelector?_holding entries, ?_, lawful.all_found_iff⟩
  rintro earlier e later rfl hc
  exact lawful.bySelector?_iff hc

/-- A function whose selector is that of `burnTokens`. -/
def collateStorage : Entry :=
  WellKnown.entry "collate_propagate_storage(bytes16)" "collate_propagate_storage"
    "propagate storage" [("bytes16", "storage")] [] .none

theorem selector_collateStorage : collateStorage.selector = burnTokens.selector := by
  rw [Entry.selector, Entry.selector, Selector.ofSignature_eq_onNumbers]
  decide +kernel

theorem lawful_burn_collate : Lawful [burnTokens, collateStorage] where
  sound := by
    unfold Sound
    decide +kernel
  distinct := by decide +kernel

/-- Of two functions of one selector, both under canonical keys, the first is not found by it. -/
theorem selector_misses_burn :
    ∃ r, ofEntries [burnTokens, collateStorage] = .ok r ∧ burnTokens.key = burnTokens.canonical ∧
      r.find? burnTokens.key = some burnTokens ∧
      r.bySelector? burnTokens.selector = some collateStorage ∧
      some collateStorage ≠ some burnTokens := by
  have hc : burnTokens.isCanonical = true ∧ collateStorage.isCanonical = true := by decide +kernel
  have hfirst : burnTokens ∈ [burnTokens, collateStorage] := by simp
  refine ⟨_, ofEntries_eq_ok.mpr ⟨lawful_burn_collate, rfl⟩, beq_iff_eq.mp hc.1,
    (find?_eq_some lawful_burn_collate.distinct).mpr ⟨hfirst, rfl⟩, ?_, by decide⟩
  rw [bySelector?_holding]
  simp [Entry.isIndexedBy, hc, selector_collateStorage]

end Registry

namespace WellKnown

theorem nodup_selectors_entries :
    ((entries.filter Entry.isCanonical).map Entry.selector).Nodup := by
  have hselector : Entry.selector = fun e => Selector.onNumbers e.canonical := by
    funext e
    rw [Entry.selector, Selector.ofSignature_eq_onNumbers]
  rw [hselector]
  decide +kernel

/-- Every well-known function under a canonical key is found by its selector. -/
theorem selector_finds_wellKnown : Registry.ofEntries entries = .ok registry ∧
    ∀ e ∈ entries, e.isCanonical = true → registry.bySelector? e.selector = some e := by
  have hr : Registry.ofEntries entries = .ok registry := by
    rw [registry_eq]
    exact ofEntries_entries
  exact ⟨hr, (Registry.selector_finds_last hr).2.2.mpr nodup_selectors_entries⟩

end WellKnown

end EvmInspect
