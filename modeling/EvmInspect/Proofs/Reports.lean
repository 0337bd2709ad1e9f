import EvmInspect.Format.Report
import EvmInspect.Proofs.Writing
import EvmInspect.Proofs.Sorting
import EvmInspect.Text.Cut

namespace EvmInspect

namespace Json

/-- In a record that names nothing twice each member is found under its name. -/
theorem field?_record {members : List (String × Json)} (once : (members.map Prod.fst).Nodup)
    {name : String} {value : Json} (h : (name, value) ∈ members) :
    (record members).field? name = some value := by
  have hfound : ((members.map fun member => (some member.1, member.2)).filter
      fun member => member.1 == some name) = [(some name, value)] := by
    induction members with
    | nil => cases h
    | cons member members ih =>
      rw [List.map_cons, List.nodup_cons] at once
      rcases List.mem_cons.mp h with rfl | h
      · have hrest : ((members.map fun member => (some member.1, member.2)).filter
            fun member => member.1 == some name) = [] := by
          rw [List.filter_eq_nil_iff]
          intro other ho
          obtain ⟨⟨key, found⟩, hm, rfl⟩ := List.mem_map.mp ho
          have hne : key ≠ name := by
            rintro rfl
            exact once.1 (List.mem_map.mpr ⟨_, hm, rfl⟩)
          simpa using hne
        rw [List.map_cons, List.filter_cons_of_pos (by simp), hrest]
      · have hne : member.1 ≠ name := by
          rintro rfl
          exact once.1 (List.mem_map.mpr ⟨_, h, rfl⟩)
        rw [List.map_cons, List.filter_cons_of_neg (by simpa using hne)]
        exact ih once.2 h
  have hrecord : record members = .object (members.map fun member => (some member.1, member.2)) :=
    rfl
  rw [field?, hrecord, optional?, lookup, hfound]
  rfl

@[simp]
theorem asNat?_nat (n : Nat) : (nat n).asNat? = some n := by
  rw [nat, asNat?, String.toList_ofList, Text.ofDigits?_decimal]

@[simp]
theorem asText?_text (s : String) : (text s).asText? = some s :=
  rfl

@[simp]
theorem asBytes?_text (bytes : Bytes) : (text (Hex.text bytes)).asBytes? = some bytes := by
  simp only [asBytes?, asText?_text, Option.bind_eq_bind, Option.bind_some, Hex.text,
    String.toList_ofList, Hex.decodeText_encode]
  rfl

@[simp]
theorem asOpcode?_text (opcode : UInt8) :
    (text (Instruction.opcodeText opcode)).asOpcode? = some opcode := by
  have hdigits : Text.dropStart? ['0', 'x'] (Instruction.opcodeText opcode).toList =
      some (Hex.encode [opcode]) := by
    simp [Instruction.opcodeText, Hex.text, Text.dropStart?]
  simp only [asOpcode?, asText?_text, Option.bind_eq_bind, Option.bind_some, hdigits,
    Hex.decodeText_encode]

theorem asList?_map {α β : Type} {item? : Json → Option β} {write : α → Json} {g : α → β}
    {xs : List α} (h : ∀ x ∈ xs, item? (write x) = some (g x)) :
    (array (xs.map write)).asList? item? = some (xs.map g) := by
  rw [asList?]
  induction xs with
  | nil => rfl
  | cons x xs ih =>
    obtain ⟨hx, hxs⟩ := List.forall_mem_cons.mp h
    rw [List.map_cons, List.mapM_cons, hx, ih hxs]
    rfl

theorem plain_texts {α : Type} (texts : List α) {write : α → String} :
    (array (texts.map fun x => text (write x))).Plain := by
  apply Plain.array
  intro item h
  obtain ⟨x, _, rfl⟩ := List.mem_map.mp h
  exact .text (write x)

theorem asList?_texts (texts : List String) :
    (array (texts.map text)).asList? asText? = some texts := by
  have hread : ∀ x ∈ texts, asText? (text x) = some (id x) := fun _ _ => rfl
  rw [asList?_map hread, List.map_id]

theorem asList?_bytes (args : List Bytes) :
    (array (args.map fun arg => text (Hex.text arg))).asList? asBytes? = some args := by
  have hread : ∀ arg ∈ args, asBytes? (text (Hex.text arg)) = some (id arg) :=
    fun arg _ => asBytes?_text arg
  rw [asList?_map hread, List.map_id]

end Json

namespace Format

theorem readNote?_lineMembers (line : Line) :
    readNote? (.record (lineMembers line)) = some line.note := by
  unfold readNote? lineMembers
  cases line.note with
  | none => simp [Json.record, Json.optional?, Json.lookup]
  | some note =>
    cases note with
    | signatures candidates =>
      simp [Json.record, Json.optional?, Json.lookup, Json.asList?_texts]
    | text recovered => simp [Json.record, Json.optional?, Json.lookup]

theorem nodup_lineMembers (line : Line) : ((lineMembers line).map Prod.fst).Nodup := by
  unfold lineMembers
  cases line.note with
  | none => simp
  | some note => cases note <;> simp

/-- A line is read back from its members, with nothing left out. -/
theorem readLine?_lineMembers (line : Line) :
    readLine? (.record (lineMembers line)) = some (Entry.ofLine line) := by
  have field {name : String} {value : Json} (h : (name, value) ∈ lineMembers line) :
      (Json.record (lineMembers line)).field? name = some value :=
    Json.field?_record (nodup_lineMembers line) h
  have hpc : (Json.record (lineMembers line)).field? "pc" = some (.nat line.pc) :=
    field (by simp [lineMembers])
  have hopcode : (Json.record (lineMembers line)).field? "opcode" =
      some (.text (Instruction.opcodeText line.instruction.opcode)) :=
    field (by simp [lineMembers])
  have hmnemonic : (Json.record (lineMembers line)).field? "mnemonic" =
      some (.text line.instruction.mnemonic) :=
    field (by simp [lineMembers])
  have hargs : (Json.record (lineMembers line)).field? "args" =
      some (.array (line.args.map fun arg => .text (Hex.text arg))) :=
    field (by simp [lineMembers])
  simp only [readLine?, hpc, hopcode, hmnemonic, hargs, readNote?_lineMembers,
    Option.bind_eq_bind, Option.bind_some, Json.asNat?_nat, Json.asOpcode?_text,
    Json.asText?_text, Json.asList?_bytes, Entry.ofLine]

/-- What a document has under each of its names. -/
theorem fields_document (d : Disassembly) :
    (document d).field? "code_len" = some (.nat d.codeLength) ∧
      (document d).field? "lines" =
        some (.array (d.lines.map fun line => .record (lineMembers line))) ∧
      (document d).field? "signatures" = some (.array (d.sortedSignatures.map .text)) := by
  have once : ([("code_len", Json.nat d.codeLength),
      ("lines", .array (d.lines.map fun line => .record (lineMembers line))),
      ("signatures", .array (d.sortedSignatures.map .text))].map Prod.fst).Nodup := by simp
  exact ⟨Json.field?_record once (by simp), Json.field?_record once (by simp),
    Json.field?_record once (by simp)⟩

/-- A disassembly is read back from its document, up to the order of its signatures. -/
theorem readReport?_document (d : Disassembly) : readReport? (document d) =
    some ⟨d.codeLength, d.lines.map Entry.ofLine, d.sortedSignatures⟩ := by
  obtain ⟨hlength, hlines, hsignatures⟩ := fields_document d
  have hentries : (Json.array (d.lines.map fun line => .record (lineMembers line))).asList?
      readLine? = some (d.lines.map Entry.ofLine) :=
    Json.asList?_map fun line _ => readLine?_lineMembers line
  simp only [readReport?, hlength, hlines, hsignatures, hentries, Option.bind_eq_bind,
    Option.bind_some, Json.asNat?_nat, Json.asList?_texts]

theorem plain_lineMembers (line : Line) : ∀ member ∈ lineMembers line, member.2.Plain := by
  intro member h
  rcases List.mem_append.mp h with h | h
  · simp only [List.mem_cons, List.not_mem_nil, or_false] at h
    rcases h with rfl | rfl | rfl | rfl
    · exact .nat _
    · exact .text _
    · exact .text _
    · exact Json.plain_texts _
  · cases hnote : line.note with
    | none =>
      rw [hnote] at h
      cases h
    | some note =>
      rw [hnote] at h
      cases note with
      | signatures candidates =>
        rw [List.mem_singleton.mp h]
        exact Json.plain_texts candidates
      | text recovered =>
        rw [List.mem_singleton.mp h]
        exact .text recovered

theorem plain_document (d : Disassembly) : (document d).Plain := by
  apply Json.Plain.record
  intro member h
  simp only [List.mem_cons, List.not_mem_nil, or_false] at h
  rcases h with rfl | rfl | rfl
  · exact .nat _
  · apply Json.Plain.array
    intro item hi
    obtain ⟨line, _, rfl⟩ := List.mem_map.mp hi
    exact .record (plain_lineMembers line)
  · exact Json.plain_texts _

end Format

namespace Disassembly

theorem perm_sortedSignatures (d : Disassembly) : d.sortedSignatures.Perm d.signatures :=
  List.mergeSort_perm d.signatures _

theorem pairwise_le_sortedSignatures (d : Disassembly) :
    d.sortedSignatures.Pairwise (· ≤ ·) :=
  pairwise_le_mergeSort id d.signatures

theorem pairwise_lt_sortedSignatures {d : Disassembly} :
    d.sortedSignatures.Pairwise (· < ·) ↔ d.signatures.Nodup := by
  have h : d.sortedSignatures.Pairwise (· < ·) ↔ (d.signatures.map id).Nodup :=
    pairwise_lt_mergeSort id
  rwa [List.map_id] at h

end Disassembly

/-- What the JSON of a disassembly says, whatever strings that holds: the length of the code, every
line in its place with its bytes and its annotation, and the signatures in ascending order. -/
theorem Format.report_of_json (d : Disassembly) :
    (∃ members, Json.ofText? (write .json d) = some (.object members) ∧
      readReport? (.object members) =
        some ⟨d.codeLength, d.lines.map Entry.ofLine, d.sortedSignatures⟩) ∧
    d.sortedSignatures.Perm d.signatures ∧ d.sortedSignatures.Pairwise (· ≤ ·) ∧
    (d.sortedSignatures.Pairwise (· < ·) ↔ d.signatures.Nodup) :=
  ⟨⟨_, (plain_document d).ofText?_pretty, readReport?_document d⟩, d.perm_sortedSignatures,
    d.pairwise_le_sortedSignatures, Disassembly.pairwise_lt_sortedSignatures⟩

end EvmInspect
