import EvmInspect.Format

namespace EvmInspect

namespace Csv

theorem needsQuotes_cons {c : Char} {field : List Char} : needsQuotes (c :: field) = false ↔
    needsQuotes [c] = false ∧ needsQuotes field = false := by
  simp [needsQuotes]

namespace Reader

variable {r : Reader}

theorem step_quote (h : r.place = .quoted) : r.step '"' = { r with place := .closed } := by
  simp [step, h]

theorem step_quote_again (h : r.place = .closed) : r.step '"' = r.take .quoted '"' := by
  simp [step, h]

theorem step_quoted {c : Char} (h : r.place = .quoted) (hc : c ≠ '"') :
    r.step c = r.take .quoted c := by
  simp [step, h, hc]

/-- Within quotes a field is read as it is, and the quotes stay open. -/
theorem foldl_escape (h : r.place = .quoted) (field : List Char) :
    (field.flatMap escape).foldl step r = { r with field := field.reverse ++ r.field } := by
  induction field generalizing r with
  | nil => rfl
  | cons c field ih =>
    have hone : (escape c).foldl step r = r.take .quoted c := by
      by_cases hc : c = '"'
      · rw [hc, escape, if_pos rfl, List.foldl_cons, step_quote h, List.foldl_cons,
          step_quote_again rfl]
        rfl
      · rw [escape, if_neg hc, List.foldl_cons, step_quoted h hc]
        rfl
    rw [List.flatMap_cons, List.foldl_append, hone, ih rfl]
    simp [take, h]

/-- Outside of quotes a comma closes the field. -/
theorem step_comma (h : r.place ≠ .quoted) : r.step ',' = r.endField := by
  cases hp : r.place <;> simp_all [step, takeOutside, isLineEnd]

/-- A line end closes the record, unless there is none yet. -/
theorem step_lineFeed (h : r.place ≠ .quoted) (hr : r.place ≠ .record) :
    r.step '\n' = r.endRecord := by
  cases hp : r.place <;> simp_all [step, takeOutside, isLineEnd]

/-- A character that needs no quotes is taken into the field. -/
theorem step_plain {c : Char} (h : r.place ≠ .quoted) (hc : needsQuotes [c] = false) :
    r.step c = r.take .bare c := by
  cases hp : r.place <;> simp_all [step, takeOutside, isLineEnd, needsQuotes]

theorem foldl_plain {field : List Char} (h : r.place = .bare) (hf : needsQuotes field = false) :
    field.foldl step r = { r with field := field.reverse ++ r.field } := by
  induction field generalizing r with
  | nil => rfl
  | cons c field ih =>
    obtain ⟨hc, hrest⟩ := needsQuotes_cons.mp hf
    rw [List.foldl_cons, step_plain (by simp [h]) hc, ih rfl hrest]
    simp [take, h]

theorem writeFields_cons (field second : List Char) (fields : List (List Char)) :
    writeFields (field :: second :: fields) =
      writeField field ++ ',' :: writeFields (second :: fields) :=
  rfl

structure AtFront (r : Reader) : Prop where
  place : r.place = .record ∨ r.place = .field
  field : r.field = []

theorem AtFront.not_quoted (front : r.AtFront) : r.place ≠ .quoted := by
  rcases front.place with h | h <;> simp [h]

/-- A written field is read, and what comes next closes it. Only an empty field at the front of a
record leaves no trace. -/
theorem foldl_writeField (front : r.AtFront) (field : List Char) :
    ∃ place, (writeField field).foldl step r = { r with place := place, field := field.reverse } ∧
      place ≠ .quoted ∧ (place = .record → r.place = .record ∧ field = []) := by
  unfold writeField
  split
  · refine ⟨.closed, ?_, by simp, by simp⟩
    have hopen : r.step '"' = { r with place := .quoted } := by
      rcases front.place with h | h <;> simp [step, h, isLineEnd]
    rw [List.foldl_cons, hopen, List.foldl_append, foldl_escape rfl, List.foldl_cons,
      step_quote rfl]
    simp [front.field]
  · rename_i hf
    cases field with
    | nil =>
      refine ⟨r.place, ?_, front.not_quoted, fun h => ⟨h, rfl⟩⟩
      rw [List.foldl_nil, List.reverse_nil, ← front.field]
    | cons c field =>
      obtain ⟨hc, hrest⟩ := needsQuotes_cons.mp (eq_false_of_ne_true hf)
      refine ⟨.bare, ?_, by simp, by simp⟩
      rw [List.foldl_cons, step_plain front.not_quoted hc, foldl_plain rfl hrest]
      simp [take, front.field]

/-- A written record is read behind the fields that were read of it before. By induction on its
fields: a comma leads to the front of the next one, the line end behind the last one closes all. -/
theorem foldl_writeRecord {fields : List (List Char)} (front : r.AtFront) (some_field : fields ≠ [])
    (visible : r.place = .record → fields ≠ [[]]) :
    (writeRecord fields).foldl step r =
      { records := (r.fields.reverse ++ fields) :: r.records } := by
  unfold writeRecord
  induction fields generalizing r with
  | nil => exact absurd rfl some_field
  | cons field fields ih =>
    obtain ⟨place, hread, hplace, htrace⟩ := foldl_writeField front field
    cases fields with
    | nil =>
      have hrecord : place ≠ .record := by
        intro h
        obtain ⟨hr, rfl⟩ := htrace h
        exact visible hr rfl
      rw [writeFields, List.foldl_append, hread, List.foldl_cons, step_lineFeed hplace hrecord]
      simp [endRecord]
    | cons second fields =>
      have hnext : Reader.AtFront (endField { r with place := place, field := field.reverse }) :=
        ⟨Or.inr rfl, rfl⟩
      rw [writeFields_cons, List.append_assoc, List.foldl_append, hread, List.cons_append,
        List.foldl_cons, step_comma hplace, ih hnext (by simp) (by simp [endField])]
      simp [endField]

theorem foldl_write {records : List (List (List Char))}
    (visible : ∀ record ∈ records, record ≠ [] ∧ record ≠ [[]])
    (before : List (List (List Char))) :
    (write records).foldl step { records := before } =
      { records := records.reverse ++ before } := by
  induction records generalizing before with
  | nil => rfl
  | cons record records ih =>
    obtain ⟨some_field, shown⟩ := visible record List.mem_cons_self
    rw [write, List.flatMap_cons, List.foldl_append,
      foldl_writeRecord ⟨Or.inl rfl, rfl⟩ some_field fun _ => shown]
    have hrest := ih (fun other h => visible other (List.mem_cons_of_mem _ h)) (record :: before)
    simpa [write] using hrest

end Reader

/-- Records are read back as they were written, unless one has no field or only an empty one: that
is written as an empty line. -/
theorem read_write {records : List (List (List Char))}
    (visible : ∀ record ∈ records, record ≠ [] ∧ record ≠ [[]]) :
    read (write records) = records := by
  have hread := Reader.foldl_write visible []
  rw [read, hread]
  simp [Reader.finish]

end Csv

def Line.candidates (line : Line) : List String :=
  match line.note with
  | some (.signatures candidates) => candidates
  | _ => []

def Line.recovered (line : Line) : String :=
  match line.note with
  | some (.text recovered) => recovered
  | _ => ""

/-- A byte as a number with two digits to the base 16. -/
def twoDigits (b : UInt8) : List Char :=
  [Nat.digitChar (b.toNat / 16), Nat.digitChar (b.toNat % 16)]

theorem Hex.digit_eq_digitChar {n : UInt8} (h : n < 16) : digit n = Nat.digitChar n.toNat := by
  have all : ∀ m : Fin 16, digit (UInt8.ofNat m) = Nat.digitChar m := by decide
  have hn := all ⟨n.toNat, by simpa [UInt8.lt_iff_toNat_lt] using h⟩
  simpa using hn

theorem Hex.pair_eq_twoDigits (b : UInt8) : pair b = twoDigits b := by
  rw [pair, twoDigits, digit_eq_digitChar (high_lt b), digit_eq_digitChar (low_lt b),
    UInt8.toNat_div, UInt8.toNat_mod]
  rfl

theorem Hex.encode_eq_flatMap (bytes : Bytes) : encode bytes = bytes.flatMap twoDigits := by
  rw [encode, funext pair_eq_twoDigits]

namespace Format

/-- What the record of a line says: where the instruction stands, its opcode in hex, its mnemonic,
its arguments in hex, the candidates and the text. -/
def rowOf (line : Line) : List (List Char) := [
  Nat.toDigits 10 line.pc,
  '0' :: 'x' :: twoDigits line.instruction.opcode,
  line.instruction.mnemonic.toList,
  [',', ' '].intercalate (line.args.map fun bytes => bytes.flatMap twoDigits),
  [';'].intercalate (line.candidates.map String.toList),
  line.recovered.toList]

theorem csvFields_eq (line : Line) : (csvFields line).map String.toList = rowOf line := by
  have hpc : (toString line.pc).toList = Nat.toDigits 10 line.pc := by simp
  have hargs : line.argsText.toList =
      [',', ' '].intercalate (line.args.map fun bytes => bytes.flatMap twoDigits) := by
    simp [Line.argsText, Hex.text, Function.comp_def, Hex.encode_eq_flatMap]
  have hopcode : (Instruction.opcodeText line.instruction.opcode).toList =
      '0' :: 'x' :: twoDigits line.instruction.opcode := by
    simp [Instruction.opcodeText, Hex.text, Hex.encode, Hex.pair_eq_twoDigits]
  unfold csvFields rowOf Line.candidates Line.recovered
  cases line.note with
  | none => simp [hargs, hopcode]
  | some note => cases note <;> simp [hargs, hopcode]

/-- Read as comma-separated values, what is written has a header and behind it a record of six
fields for each line, in order, whatever strings the lines hold. -/
theorem read_csv (d : Disassembly) : Csv.read (write .csv d).toList =
    ["pc", "opcode", "mnemonic", "args", "signatures", "text"].map String.toList ::
      d.lines.map rowOf := by
  have hrows : (csvHeader :: d.lines.map csvFields).map (·.map String.toList) =
      csvHeader.map String.toList :: d.lines.map rowOf := by
    simp [csvFields_eq, Function.comp_def]
  rw [write, writeCsv, String.toList_ofList, hrows, Csv.read_write]
  · rfl
  · intro record hrecord
    rcases List.mem_cons.mp hrecord with rfl | hrecord
    · simp [csvHeader]
    · obtain ⟨line, _, rfl⟩ := List.mem_map.mp hrecord
      simp [rowOf]

end Format

end EvmInspect
