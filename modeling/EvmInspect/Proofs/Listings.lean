import EvmInspect.Hex.Lemmas
import EvmInspect.Text.Quoted.Lemmas
import EvmInspect.Proofs.Discoveries

namespace EvmInspect

namespace Text

theorem not_mem_of_isAlphanum {text : List Char} (h : ∀ c ∈ text, c.isAlphanum = true) :
    '\n' ∉ text := by
  intro hmem
  exact absurd (h '\n' hmem) (by decide)

theorem not_mem_decimal (n : Nat) : '\n' ∉ decimal n := by
  intro hmem
  exact absurd (isDigit_of_mem_decimal hmem) (by decide)

/-- A line break is quoted as a letter behind a backslash. -/
theorem not_mem_escape {mark : Char} (h : mark ≠ '\n') (c : Char) :
    '\n' ∉ Quoted.escape mark c := by
  unfold Quoted.escape
  by_cases hc : c = '\n'
  · rw [hc, if_neg (by simp [h.symm])]
    decide
  · have hdigits := not_mem_of_isAlphanum fun _ => isAlphanum_of_mem_hexDigits (n := c.toNat)
    have hother : '\n' ≠ c := Ne.symm hc
    split_ifs <;> simp [hother, hdigits]

theorem not_mem_quote (text : String) : '\n' ∉ (quote text).toList := by
  simp [quote, Quoted.encode, not_mem_escape]

end Text

namespace Instruction

theorem not_mem_plain {opcode : UInt8} {mnemonic : String} (h : plain? opcode = some mnemonic) :
    '\n' ∉ mnemonic.toList := by
  unfold plain? at h
  split at h
  all_goals cases h
  all_goals decide

theorem not_mem_mnemonic (opcode : UInt8) : '\n' ∉ (ofOpcode opcode).mnemonic.toList := by
  have hfamilies : ∀ family ∈ families, '\n' ∉ family.name.toList := by decide
  unfold ofOpcode
  split
  · rename_i family hfamily
    have hname := hfamilies family (List.mem_of_find?_eq_some hfamily)
    rw [String.toList_append, Text.toList_toString, List.mem_append, not_or]
    exact ⟨hname, Text.not_mem_decimal _⟩
  · split
    · rename_i mnemonic hplain
      exact not_mem_plain hplain
    · change '\n' ∉ undefinedMnemonic.toList
      decide

theorem not_mem_display (opcode : UInt8) : '\n' ∉ (ofOpcode opcode).display.toList := by
  have hdigits : '\n' ∉ Hex.encode [(ofOpcode opcode).opcode] :=
    Text.not_mem_of_isAlphanum fun _ => Hex.isAlphanum_of_mem_encode
  unfold display
  split
  · exact not_mem_mnemonic opcode
  · simp [opcodeText, Hex.text, not_mem_mnemonic, hdigits]

end Instruction

namespace Annotation

/-- How many line breaks the candidates bring along. -/
def breaks : Annotation → Nat
  | .signatures candidates => (candidates.map fun x => x.toList.count '\n').sum
  | .text _ => 0

theorem count_display (note : Annotation) : note.display.toList.count '\n' = note.breaks := by
  cases note with
  | signatures candidates =>
    rw [display, String.toList_intercalate, Text.count_intercalate (by decide), List.count_flatten,
      List.map_map]
    rfl
  | text recovered => exact List.count_eq_zero.mpr (Text.not_mem_quote recovered)

end Annotation

namespace Line

def breaks (line : Line) : Nat :=
  line.note.elim 0 Annotation.breaks

theorem count_argsText (line : Line) : line.argsText.toList.count '\n' = 0 := by
  rw [argsText, String.toList_intercalate, Text.count_intercalate (by decide), List.map_map]
  apply List.count_eq_zero.mpr
  rw [List.mem_flatten]
  rintro ⟨_, hdigits, hmem⟩
  obtain ⟨arg, _, rfl⟩ := List.mem_map.mp hdigits
  rw [Function.comp, Hex.text, String.toList_ofList] at hmem
  exact Text.not_mem_of_isAlphanum (fun _ => Hex.isAlphanum_of_mem_encode) hmem

/-- What is shown of an instruction has the line breaks of its candidates. -/
theorem count_display {line : Line}
    (h : line.instruction = Instruction.ofOpcode line.instruction.opcode) :
    line.display.toList.count '\n' = line.breaks := by
  have hinstruction : line.instruction.display.toList.count '\n' = 0 := by
    rw [h]
    exact List.count_eq_zero.mpr (Instruction.not_mem_display _)
  have hargs : (if line.args.isEmpty then "" else " " ++ line.argsText).toList.count '\n' = 0 := by
    split
    · rfl
    · simp [line.count_argsText]
  have hpc := List.count_eq_zero.mpr (Text.not_mem_decimal line.pc)
  unfold display
  simp only [String.toList_append, List.count_append, hinstruction, hargs, Text.toList_toString,
    hpc]
  unfold breaks
  cases line.note with
  | none => rfl
  | some note => simp [note.count_display]

end Line

theorem Text.length_splitOn (mark : Char) (text : List Char) :
    (text.splitOn mark).length = text.count mark + 1 := by
  induction text with
  | nil => simp
  | cons c text ih =>
    by_cases h : c = mark <;> simp [List.splitOn_cons_eq_if_modifyHead, h, ih]

namespace Disassembly

theorem toList_listing (d : Disassembly) :
    d.listing.toList = d.lines.flatMap fun line => line.display.toList ++ ['\n'] := by
  simp [listing, String.toList_join, List.flatMap_map]

/-- At line breaks the listing falls apart into the parts of what is shown of each instruction. -/
theorem splitOn_listing (d : Disassembly) : d.listing.toList.splitOn '\n' =
    (d.lines.flatMap fun line => line.display.toList.splitOn '\n') ++ [[]] := by
  rw [toList_listing]
  induction d.lines with
  | nil => simp
  | cons line lines ih =>
    rw [List.flatMap_cons, List.flatMap_cons, List.append_assoc, List.singleton_append,
      List.splitOn_append_cons_self, ih, List.append_assoc]

variable {d : Disassembly}

theorem count_listing
    (h : ∀ line ∈ d.lines, line.instruction = Instruction.ofOpcode line.instruction.opcode) :
    d.listing.toList.count '\n' = d.lines.length + (d.lines.map Line.breaks).sum := by
  rw [toList_listing, List.count_flatMap]
  have hline : ∀ line ∈ d.lines,
      (List.count '\n' ∘ fun line => line.display.toList ++ ['\n']) line = 1 + line.breaks := by
    intro line hl
    simp [Line.count_display (h line hl), Nat.add_comm]
  rw [List.map_congr_left hline, List.sum_map_add]
  simp

theorem breaks_eq_zero_iff : (∀ line ∈ d.lines, line.breaks = 0) ↔
    ∀ x, d.Shows x → '\n' ∉ x.toList := by
  constructor
  · rintro h x ⟨line, hline, candidates, hnote, hx⟩
    have hsum := h line hline
    rw [Line.breaks, hnote, Option.elim_some, Annotation.breaks, List.sum_eq_zero_iff] at hsum
    exact List.count_eq_zero.mp (hsum _ (List.mem_map_of_mem hx))
  · intro h line hline
    unfold Line.breaks
    cases hnote : line.note with
    | none => rfl
    | some note =>
      cases note with
      | text _ => rfl
      | signatures candidates =>
        rw [Option.elim_some, Annotation.breaks, List.sum_eq_zero_iff]
        refine List.forall_mem_map.mpr fun x hx => ?_
        exact List.count_eq_zero.mpr (h x ⟨line, hline, candidates, hnote, hx⟩)

/-- A listing has one line break for each instruction exactly if no signature brings one along. -/
theorem count_listing_iff
    (h : ∀ line ∈ d.lines, line.instruction = Instruction.ofOpcode line.instruction.opcode) :
    d.listing.toList.count '\n' = d.lines.length ↔ ∀ x, d.Shows x → '\n' ∉ x.toList := by
  rw [count_listing h, ← breaks_eq_zero_iff, Nat.add_eq_left, List.sum_eq_zero_iff,
    List.forall_mem_map]

theorem splitOn_listing_iff
    (h : ∀ line ∈ d.lines, line.instruction = Instruction.ofOpcode line.instruction.opcode) :
    d.listing.toList.splitOn '\n' = (d.lines.map fun line => line.display.toList) ++ [[]] ↔
      ∀ x, d.Shows x → '\n' ∉ x.toList := by
  rw [← count_listing_iff h]
  constructor
  · intro hsplit
    have hlength := Text.length_splitOn '\n' d.listing.toList
    rw [hsplit] at hlength
    simpa using hlength.symm
  · intro hcount
    have hnone := breaks_eq_zero_iff.mpr ((count_listing_iff h).mp hcount)
    have hwhole : ∀ line ∈ d.lines,
        line.display.toList.splitOn '\n' = [line.display.toList] := by
      intro line hl
      apply List.splitOn_eq_singleton
      exact List.count_eq_zero.mp ((Line.count_display (h line hl)).trans (hnone line hl))
    rw [splitOn_listing, List.flatMap_congr hwhole, List.map_eq_flatMap]

end Disassembly

namespace Session
variable {σ : Type} {resolver : Resolver σ}

/-- The instructions of the lines are those of their opcodes. -/
theorem instruction_of_line {code : Bytes} {session : Session σ} {line : Line}
    (h : line ∈ (session.finding resolver code).lines) :
    line.instruction = Instruction.ofOpcode line.instruction.opcode := by
  obtain ⟨p, hp, rfl⟩ := List.mem_map.mp h
  obtain ⟨_, tiles, _⟩ := Sweep.tiles_scan code
  obtain ⟨opcode, _, hi⟩ := (tiles.held p hp).opcode
  rw [Findings.line, p.instruction_line, hi, Instruction.opcode_ofOpcode]

/-- A listing has a line break for each line and those that stand in the signatures shown. So it
falls apart into what is shown of each instruction exactly if no signature has one. -/
theorem disassemble_lists (resolver : Resolver σ) (code : Bytes) (session : Session σ) :
    ∃ d, ((session.disassemble resolver code).1 = .ok d ∨
        ∃ cut, (session.disassemble resolver code).1 = .error (.truncated cut d)) ∧
      d.listing.toList.count '\n' = d.lines.length + (d.lines.map Line.breaks).sum ∧
      (d.listing.toList.count '\n' = d.lines.length ↔ ∀ x ∈ d.signatures, '\n' ∉ x.toList) ∧
      (d.listing.toList.splitOn '\n' = (d.lines.map fun line => line.display.toList) ++ [[]] ↔
        ∀ x ∈ d.signatures, '\n' ∉ x.toList) := by
  have hlines := fun line (h : line ∈ (session.finding resolver code).lines) =>
    instruction_of_line h
  refine ⟨session.finding resolver code, disassemble_finding resolver code session,
    Disassembly.count_listing hlines, ?_⟩
  simp only [mem_signatures_iff_shows]
  exact ⟨Disassembly.count_listing_iff hlines, Disassembly.splitOn_listing_iff hlines⟩

def forging : Resolver Unit :=
  fun _ memory => ⟨.ok ["ping() pc=0\nSTOP ;"], [], memory⟩

/-- The listing of a single push reads like one of two instructions. -/
theorem listing_of_forging :
    ∃ d, (disassemble forging pushed { memory := () }).1 = .ok d ∧ d.lines.length = 1 ∧
      d.listing.toList.count '\n' = 2 ∧
      d.listing.toList.splitOn '\n' =
        ["PUSH4 deadbeef ; ping() pc=0".toList, "STOP ; pc=0".toList, []] := by
  have hwhole : (Sweep.scan pushed).cut = none := by decide +kernel
  refine ⟨_, disassemble_whole hwhole forging { memory := () }, ?_, ?_, ?_⟩
  · decide +kernel
  · decide +kernel
  · decide +kernel

end Session

end EvmInspect
