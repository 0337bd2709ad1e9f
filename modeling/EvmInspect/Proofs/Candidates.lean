import EvmInspect.Proofs.Registration

namespace EvmInspect

namespace Registry

variable {entries : List Entry} {r : Registry}

theorem open_mem_key (h : ofEntries entries = .ok r) : ∀ e ∈ r.entries, '(' ∈ e.key.toList := by
  obtain ⟨lawful, rfl⟩ := ofEntries_eq_ok.mp h
  exact fun e he => (lawful.sound e he).open_mem_key

/-- The name in lower case, which is tried last, leads to no entry: every key of a registry has a
parenthesis, and no name has one, in whatever way it is lowered. -/
theorem lookup_without_name (h : ofEntries entries = .ok r) (text : String) :
    (∀ e ∈ r.entries, '(' ∈ e.key.toList) ∧
    '(' ∉ (Signature.ofText text).name.toList ∧
    (∀ lowered, Text.Lowered (Signature.ofText text).name.toList lowered →
      '(' ∉ lowered ∧ r.get? (String.ofList lowered) = none) ∧
    (∃ key, (candidateKeys (Signature.ofText text))[4]? = some key ∧
      Text.Lowered (Signature.ofText text).name.toList key.toList ∧ r.get? key = none) ∧
    r.lookup (Signature.ofText text) =
      [text, (Signature.ofText text).canonical, collapsed (Signature.ofText text).canonical,
        collapsed text].findSome? r.get? := by
  have hkeys := open_mem_key h
  have hplain := (Signature.legible_ofText text).name_plain
  have hlowered : ∀ lowered, Text.Lowered (Signature.ofText text).name.toList lowered →
      '(' ∉ lowered ∧ r.get? (String.ofList lowered) = none := by
    intro lowered hl
    have hnone := hl.not_mem hplain
    exact ⟨hnone, get?_eq_none hkeys (by rwa [String.toList_ofList])⟩
  have hlast := Text.lowered_lowercase (Signature.ofText text).name.toList
  have hnone := (hlowered _ hlast).2
  refine ⟨hkeys, hplain, hlowered, ⟨_, rfl, by rwa [String.toList_ofList], hnone⟩, ?_⟩
  rw [lookup_eq, Signature.raw_ofText]
  -- the last of the keys leads to nothing
  change ([_, _, _, _] ++ [_]).findSome? r.get? = _
  rw [List.findSome?_append, List.findSome?_singleton, hnone, Option.or_none]

/-- The name of a well-known function leads nowhere by itself, in lower case or not. -/
theorem lookup_without_name_capitals :
    ofEntries WellKnown.entries = .ok (holding WellKnown.entries) ∧
    Text.Lowered "BALANCE".toList "balance".toList ∧
    (holding WellKnown.entries).get? "balance" = none ∧
    (holding WellKnown.entries).lookup (Signature.ofText "BALANCE(address who)") = none := by
  have hname : (Signature.ofText "BALANCE(address who)").name = "BALANCE" := by decide +kernel
  have hcase : Text.Lowered "BALANCE".toList "balance".toList := Text.lowered_lowercase _
  have htried : ["BALANCE(address who)", (Signature.ofText "BALANCE(address who)").canonical,
      collapsed (Signature.ofText "BALANCE(address who)").canonical,
      collapsed "BALANCE(address who)"].findSome? (holding WellKnown.entries).get? = none := by
    decide +kernel
  obtain ⟨_, _, hlowered, _, hlookup⟩ :=
    lookup_without_name WellKnown.ofEntries_entries "BALANCE(address who)"
  rw [hname] at hlowered
  exact ⟨WellKnown.ofEntries_entries, hcase, (hlowered _ hcase).2, hlookup.trans htried⟩

end Registry

end EvmInspect
