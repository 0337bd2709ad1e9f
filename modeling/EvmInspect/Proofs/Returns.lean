import EvmInspect.Proofs.Matching
import EvmInspect.Abi.Call

namespace EvmInspect

namespace Text

theorem infix_of_after? {part text rest : List Char} (h : after? part text = some rest) :
    part <:+: text := by
  induction text with
  | nil =>
    rw [eq_append_of_dropStart? h]
    exact (List.prefix_append part rest).isInfix
  | cons c text ih =>
    rw [after?, Option.or_eq_some_iff] at h
    rcases h with h | ⟨_, h⟩
    · rw [eq_append_of_dropStart? h]
      exact (List.prefix_append part rest).isInfix
    · exact (ih h).trans (List.suffix_cons c text).isInfix

/-- What follows a list stands at the end of the text. -/
theorem suffix_listBody (text : List Char) : (listBody text).2 <:+ text := by
  rw [listBody]
  cases h : closing? 0 text with
  | none => exact List.nil_suffix
  | some found =>
    obtain ⟨body, rest⟩ := found
    obtain ⟨htext, _⟩ := eq_append_of_closing? h
    rw [htext, List.append_cons]
    exact List.suffix_append _ _

end Text

namespace Signature

/-- A text that declares outputs has the word for it. -/
theorem infix_of_outputs {text : String} (h : (ofText text).outputs ≠ []) :
    "returns".toList <:+: text.toList := by
  unfold ofText read at h
  dsimp only at h
  split at h
  · exact absurd rfl h
  · rename_i name list hopen
    obtain ⟨htext, _⟩ := Text.eq_append_of_around? hopen
    have hlist : list <:+: text.toList := by
      refine List.IsInfix.trans ?_ (Text.infix_of_trim text.toList)
      rw [htext, List.append_cons]
      exact (List.suffix_append _ _).isInfix
    have hrest := (Text.suffix_listBody list).isInfix.trans hlist
    dsimp only at h
    unfold readOutputs at h
    split at h
    · exact absurd rfl h
    · rename_i clause hclause
      exact (Text.infix_of_after? hclause).trans hrest

end Signature

namespace Descriptor

open Registry (annotatedKeys trimmed collapsed)

variable {text : String}

/-- No annotated key declares outputs. -/
theorem collapsed_not_annotated (h : (Signature.ofText text).outputs ≠ []) :
    collapsed text ∉ annotatedKeys := by
  intro ha
  have hkeys : ∀ key ∈ annotatedKeys,
      ¬ "returns".toList <:+: key.toList.filter (! Text.isBlank ·) := by decide +kernel
  have hkept : (collapsed text).toList.filter (! Text.isBlank ·) =
      text.toList.filter (! Text.isBlank ·) := by
    rw [collapsed, String.toList_ofList, Text.filter_collapse]
  have hinfix := (Signature.infix_of_outputs h).filter (! Text.isBlank ·)
  rw [← hkept] at hinfix
  exact hkeys _ ha hinfix

/-- A text that declares outputs stands for the function of its canonical form. -/
theorem ofText_of_outputs (h : (Signature.ofText text).outputs ≠ []) :
    (∀ e ∈ WellKnown.entries, e.key = (Signature.ofText text).canonical →
      ofText text = .wellKnown e) ∧
    ((∀ e ∈ WellKnown.entries, e.key ≠ (Signature.ofText text).canonical) →
      ofText text = .parsed (Signature.ofText text)) := by
  have hcollapsed := collapsed_not_annotated h
  have htrimmed : trimmed text ∉ annotatedKeys := by
    intro ha
    apply hcollapsed
    rwa [collapsed_of_trimmed ha]
  exact ⟨fun e he hkey => (Matches.canonical htrimmed he hkey).eq,
    fun hnone => (Matches.unknown htrimmed hnone hcollapsed).eq⟩

end Descriptor

namespace Abi

theorem paramTypes_eq (params : List Param) :
    paramTypes params = (params.map Param.type).mapM AbiType.ofText := by
  rw [List.mapM_map]
  rfl

/-- Results are decoded by the types of the outputs, whatever their names are. -/
theorem decodeOutputs_congr {d other : Descriptor}
    (h : d.outputs.map Param.type = other.outputs.map Param.type) (data : Bytes) :
    decodeOutputs d data = decodeOutputs other data := by
  rw [decodeOutputs, decodeOutputs, paramTypes_eq, paramTypes_eq, h]

theorem decodeOutputs_nil {d : Descriptor} (h : d.outputs = []) (data : Bytes) :
    decodeOutputs d data = .ok [] := by
  rw [decodeOutputs, h]
  simp [paramTypes, decode, decodeSequence]

/-- The outputs that a text declares are those of its descriptor exactly when the well-known
function of its canonical form, if there is one, has outputs of the same types. -/
theorem outputs_declared_iff {text : String} (h : (Signature.ofText text).outputs ≠ []) :
    ((Descriptor.ofText text).outputs.map Param.type =
        (Signature.ofText text).outputs.map Param.type ↔
      ∀ e ∈ WellKnown.entries, e.key = (Signature.ofText text).canonical →
        e.outputs.map Param.type = (Signature.ofText text).outputs.map Param.type) ∧
    ((∀ e ∈ WellKnown.entries, e.key ≠ (Signature.ofText text).canonical) →
      Descriptor.ofText text = .parsed (Signature.ofText text)) ∧
    ∀ e ∈ WellKnown.entries, e.key = (Signature.ofText text).canonical →
      Descriptor.ofText text = .wellKnown e ∧
      (e.outputs.map Param.type = (Signature.ofText text).outputs.map Param.type → ∀ data,
        decodeOutputs (Descriptor.ofText text) data =
          decodeOutputs (.parsed (Signature.ofText text)) data) ∧
      (e.outputs = [] → ∀ data, decodeOutputs (Descriptor.ofText text) data = .ok []) := by
  obtain ⟨hknown, hunknown⟩ := Descriptor.ofText_of_outputs h
  refine ⟨⟨?_, ?_⟩, hunknown, ?_⟩
  · intro htypes e he hkey
    rwa [hknown e he hkey] at htypes
  · intro htypes
    by_cases hnone : ∀ e ∈ WellKnown.entries, e.key ≠ (Signature.ofText text).canonical
    · rw [hunknown hnone]
      rfl
    · obtain ⟨e, he, hkey⟩ : ∃ e ∈ WellKnown.entries,
          e.key = (Signature.ofText text).canonical := by simpa using hnone
      rw [hknown e he hkey]
      exact htypes e he hkey
  · intro e he hkey
    rw [hknown e he hkey]
    exact ⟨rfl, fun htypes => decodeOutputs_congr htypes, fun hnil => decodeOutputs_nil hnil⟩

theorem outputs_declared_iff_supply :
    (Signature.ofText "totalSupply() returns (uint256 supply)").outputs =
      [⟨some "supply", "uint256"⟩] ∧
    (Descriptor.ofText "totalSupply() returns (uint256 supply)").outputs.map Param.type =
      ["uint256"] ∧
    Descriptor.ofText "quote(address) returns (int256)" =
      .parsed (Signature.ofText "quote(address) returns (int256)") := by
  have hsupply : (Signature.ofText "totalSupply() returns (uint256 supply)").outputs =
      [⟨some "supply", "uint256"⟩] := by decide +kernel
  have htypes : ∀ e ∈ WellKnown.entries,
      e.key = (Signature.ofText "totalSupply() returns (uint256 supply)").canonical →
        e.outputs.map Param.type =
          (Signature.ofText "totalSupply() returns (uint256 supply)").outputs.map Param.type := by
    decide +kernel
  have hquote : (Signature.ofText "quote(address) returns (int256)").outputs ≠ [] := by
    decide +kernel
  have hdeclared := (outputs_declared_iff (by simp [hsupply])).1.mpr htypes
  rw [hsupply] at hdeclared
  exact ⟨hsupply, hdeclared, (outputs_declared_iff hquote).2.1 (by decide +kernel)⟩

/-- A well-known function without outputs decodes to nothing what was declared as a flag. -/
theorem outputs_undeclared_of_transfer :
    (Signature.ofText "transfer(address,uint256) returns (bool)").outputs = [⟨none, "bool"⟩] ∧
    (Descriptor.ofText "transfer(address,uint256) returns (bool)").outputs = [] ∧
    decodeOutputs (.parsed (Signature.ofText "transfer(address,uint256) returns (bool)"))
      (List.replicate 31 0 ++ [1]) = .ok [.bool true] ∧
    decodeOutputs (Descriptor.ofText "transfer(address,uint256) returns (bool)")
      (List.replicate 31 0 ++ [1]) = .ok [] := by
  obtain ⟨e, he, hkey, hnone⟩ : ∃ e ∈ WellKnown.entries,
      e.key = "transfer(address,uint256)" ∧ e.outputs = [] := by decide +kernel
  have hread : (Signature.ofText "transfer(address,uint256) returns (bool)").canonical =
      "transfer(address,uint256)" := by decide +kernel
  have hd : Descriptor.ofText "transfer(address,uint256) returns (bool)" = .wellKnown e :=
    (Descriptor.Matches.canonical (by decide +kernel) he (hkey.trans hread.symm)).eq
  have hnil : (Descriptor.wellKnown e).outputs = [] := hnone
  have htypes : paramTypes (Signature.ofText "transfer(address,uint256) returns (bool)").outputs =
      .ok [.bool] := by rfl
  have hvalues : decode [.bool] (List.replicate 31 0 ++ [1]) = .ok [.bool true] := by cbv
  have hdeclared :
      decodeOutputs (.parsed (Signature.ofText "transfer(address,uint256) returns (bool)"))
        (List.replicate 31 0 ++ [1]) = .ok [.bool true] :=
    bind_eq_ok.mpr ⟨[.bool], htypes, hvalues⟩
  rw [hd]
  exact ⟨by decide +kernel, hnil, hdeclared, decodeOutputs_nil hnil _⟩

end Abi
end EvmInspect
