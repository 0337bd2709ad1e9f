import EvmInspect.Proofs.Listings
import EvmInspect.Proofs.Reports

namespace EvmInspect

/-- Lines that end with a line break each, and have no other one, are found again. -/
theorem Text.splitOn_lines {lines : List (List Char)} (h : ∀ line ∈ lines, '\n' ∉ line) :
    (lines.flatMap fun line => line ++ ['\n']).splitOn '\n' = lines ++ [[]] := by
  induction lines with
  | nil => simp
  | cons line lines ih =>
    obtain ⟨hline, hlines⟩ := List.forall_mem_cons.mp h
    rw [List.flatMap_cons, List.append_assoc, List.singleton_append,
      List.splitOn_append_cons_self, List.splitOn_eq_singleton hline, ih hlines]
    rfl

namespace Json

/-- Within a string a line break is a letter behind a backslash. -/
theorem not_mem_escape (c : Char) : '\n' ∉ escape c := by
  unfold escape
  by_cases hc : c = '\n'
  · rw [hc]
    decide
  · have hdigits := Text.not_mem_of_isAlphanum fun _ =>
      Text.isAlphanum_of_mem_hexDigits (n := c.toNat)
    have hother : '\n' ≠ c := Ne.symm hc
    split_ifs <;> simp [hother, hdigits]

theorem not_mem_quoted (s : String) : '\n' ∉ quoted (some s) := by
  simp [quoted, not_mem_escape]

theorem not_mem_writeItems {items : List Json} {level : Nat}
    (h : ∀ item ∈ items, ∀ level, '\n' ∉ writeAt false level item) :
    '\n' ∉ writeItems false level items := by
  induction items with
  | nil => simp [writeItems]
  | cons item items ih =>
    obtain ⟨hitem, hitems⟩ := List.forall_mem_cons.mp h
    simp [writeItems, lineBreak, hitem level, ih hitems]

theorem not_mem_writeMember {member : String × Json} {level : Nat}
    (h : '\n' ∉ writeAt false level member.2) :
    '\n' ∉ writeMember false level (some member.1, member.2) := by
  simp [writeMember, colon, not_mem_quoted, h]

theorem not_mem_writeMembers {members : List (String × Json)}
    (h : ∀ member ∈ members, ∀ level, '\n' ∉ writeAt false level member.2) (level : Nat) :
    '\n' ∉ writeMembers false level (keyed members) := by
  induction members with
  | nil => simp [keyed, writeMembers]
  | cons member members ih =>
    obtain ⟨hmember, hmembers⟩ := List.forall_mem_cons.mp h
    have hfirst := not_mem_writeMember (hmember level)
    have hrest := ih hmembers
    rw [keyed] at hrest
    simp [keyed, writeMembers, lineBreak, hfirst, hrest]

/-- What is written on one line stays on it, whatever characters its strings hold. -/
theorem Plain.not_mem_writeAt {json : Json} (h : Plain json) (level : Nat) :
    '\n' ∉ writeAt false level json := by
  induction h generalizing level with
  | null => simp [writeAt]
  | bool value => cases value <;> simp [writeAt]
  | nat n => simp [Json.nat, writeAt, Text.not_mem_decimal]
  | text s =>
    rw [Json.text, writeAt]
    exact not_mem_quoted s
  | @array items _ ih =>
    cases items with
    | nil => simp [writeAt]
    | cons item items =>
      obtain ⟨hitem, hitems⟩ := List.forall_mem_cons.mp ih
      simp [writeAt, lineBreak, hitem, not_mem_writeItems hitems]
  | @record members _ ih =>
    cases members with
    | nil => simp [Json.record, writeAt]
    | cons member members =>
      obtain ⟨hmember, hmembers⟩ := List.forall_mem_cons.mp ih
      have hfirst := not_mem_writeMember (hmember (level + 1))
      have hrest := not_mem_writeMembers hmembers (level + 1)
      rw [keyed] at hrest
      simp [Json.record, writeAt, lineBreak, hfirst, hrest]

end Json

namespace Format

theorem plain_records (d : Disassembly) : ∀ json ∈ records d, json.Plain := by
  intro json h
  rcases List.mem_append.mp h with h | h
  · obtain ⟨line, _, rfl⟩ := List.mem_map.mp h
    exact .record (List.forall_mem_cons.mpr ⟨.text "line", plain_lineMembers line⟩)
  · obtain ⟨signature, _, rfl⟩ := List.mem_map.mp h
    apply Json.Plain.record
    simp only [List.mem_cons, List.not_mem_nil, or_false, forall_eq_or_imp, forall_eq]
    exact ⟨.text "signature", .text signature⟩

theorem length_records (d : Disassembly) :
    (records d).length = d.lines.length + d.signatures.length := by
  rw [records, List.length_append, List.length_map, List.length_map,
    d.perm_sortedSignatures.length_eq]

/-- At line breaks the text falls apart into the documents, each of which is read back. -/
theorem splitOn_writeJsonLines (d : Disassembly) :
    (writeJsonLines d).toList.splitOn '\n' = (records d).map (Json.writeAt false 0) ++ [[]] := by
  have htext : (writeJsonLines d).toList =
      ((records d).map (Json.writeAt false 0)).flatMap fun line => line ++ ['\n'] := by
    simp [writeJsonLines, Json.compact, String.toList_join, List.flatMap_map]
  rw [htext]
  apply Text.splitOn_lines
  intro line h
  obtain ⟨json, hjson, rfl⟩ := List.mem_map.mp h
  exact (plain_records d json hjson).not_mem_writeAt 0

theorem map_ofText?_records (d : Disassembly) :
    ((records d).map (Json.writeAt false 0)).map (fun line => Json.ofText? (String.ofList line)) =
      (records d).map some := by
  rw [List.map_map]
  apply List.map_congr_left
  intro json hjson
  exact (plain_records d json hjson).ofText?_writeAt false

theorem untyped_lineMembers (line : Line) : "type" ∉ (lineMembers line).map Prod.fst := by
  unfold lineMembers
  cases line.note with
  | none => simp
  | some note => cases note <;> simp

/-- JSON lines say what the one document says. They fall apart at the line breaks into an object for
each line, with a type in front, and one for each signature, in the order of the arrays. -/
theorem jsonLines_of_json (d : Disassembly) :
    ∃ (whole : Json) (objects : List (List (Option String × Json))) (signatures : List String)
      (texts : List (List Char)),
    Json.ofText? (write .json d) = some whole ∧
    whole.field? "lines" = some (.array (objects.map Json.object)) ∧
    whole.field? "signatures" = some (.array (signatures.map Json.text)) ∧
    (∀ members ∈ objects, some "type" ∉ members.map Prod.fst) ∧
    objects.length = d.lines.length ∧ signatures.length = d.signatures.length ∧
    (write .jsonLines d).toList.splitOn '\n' = texts ++ [[]] ∧
    texts.length = d.lines.length + d.signatures.length ∧
    texts.map (fun text => Json.ofText? (String.ofList text)) =
      (objects.map fun members => some (.object ((some "type", .text "line") :: members))) ++
        signatures.map fun signature =>
          some (.record [("type", .text "signature"), ("signature", .text signature)]) := by
  obtain ⟨_, hlines, hsignatures⟩ := fields_document d
  refine ⟨document d, d.lines.map fun line => Json.keyed (lineMembers line),
    d.sortedSignatures, (records d).map (Json.writeAt false 0),
    (plain_document d).ofText?_pretty, ?_, hsignatures, ?_, List.length_map _,
    d.perm_sortedSignatures.length_eq, splitOn_writeJsonLines d, ?_, ?_⟩
  · rw [hlines, List.map_map]
    rfl
  · intro members h
    obtain ⟨line, _, rfl⟩ := List.mem_map.mp h
    simpa [Json.keyed] using untyped_lineMembers line
  · rw [List.length_map, length_records]
  · rw [map_ofText?_records, records, List.map_append, List.map_map, List.map_map, List.map_map]
    rfl

end Format
end EvmInspect
