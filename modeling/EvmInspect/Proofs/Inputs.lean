import EvmInspect.Disassembly.Run
import EvmInspect.Hex.Lemmas
import EvmInspect.Text.Blank.Lemmas

namespace EvmInspect

namespace Hex

def marks : List (List Char) :=
  [['0', 'x'], ['0', 'X']]

/-- The text has blanks around what stands in it, which is a mark, or none, and what follows it. A
text that begins with a mark has it for its mark, and another one behind it does not count. -/
structure Marked (text mark rest : List Char) : Prop where
  within : ∃ before behind, text = before ++ (mark ++ rest ++ behind) ∧
    (∀ c ∈ before, Text.isBlank c = true) ∧ ∀ c ∈ behind, Text.isBlank c = true
  trimmed : Text.Trimmed (mark ++ rest)
  mark : mark ∈ marks ∨ mark = [] ∧ ∀ m ∈ marks, ¬ m <+: rest

theorem Marked.trim_eq {text mark rest : List Char} (h : Marked text mark rest) :
    Text.trim text = mark ++ rest := by
  obtain ⟨before, behind, rfl, hbefore, hbehind⟩ := h.within
  rw [Text.trim_append hbefore, Text.trim_append_gap _ hbehind, Text.trim_eq_self h.trimmed]

/-- Every text is of this form. -/
theorem exists_marked (text : List Char) : ∃ mark rest, Marked text mark rest := by
  obtain ⟨before, behind, htext, hbefore, hbehind⟩ := Text.exists_gaps text
  have htrimmed := Text.trimmed_trim text
  by_cases h : ∃ m ∈ marks, m <+: Text.trim text
  · obtain ⟨m, hm, rest, hrest⟩ := h
    rw [← hrest] at htext htrimmed
    exact ⟨m, rest, ⟨before, behind, htext, hbefore, hbehind⟩, htrimmed, Or.inl hm⟩
  · refine ⟨[], Text.trim text, ⟨before, behind, htext, hbefore, hbehind⟩, htrimmed,
      Or.inr ⟨rfl, ?_⟩⟩
    exact fun m hm hp => h ⟨m, hm, hp⟩

/-- Bytes written in hex begin with no mark. -/
theorem not_isPrefix_encode {m : List Char} (hm : m ∈ marks) (code : Bytes) :
    ¬ m <+: encode code := by
  rintro ⟨rest, hrest⟩
  have hdigit : ∀ c ∈ m, isDigit c = true := by
    intro c hc
    have hcode : c ∈ encode code := hrest ▸ List.mem_append_left _ hc
    exact isDigit_of_mem_encode hcode
  simp only [marks, List.mem_cons, List.not_mem_nil, or_false] at hm
  rcases hm with rfl | rfl
  · exact absurd (hdigit 'x' (by simp)) (by decide)
  · exact absurd (hdigit 'X' (by simp)) (by decide)

/-- Bytes written in hex, with or without a mark in front and blanks around. -/
theorem marked_encode {before mark behind : List Char}
    (hbefore : ∀ c ∈ before, Text.isBlank c = true) (hmark : mark = [] ∨ mark ∈ marks)
    (hbehind : ∀ c ∈ behind, Text.isBlank c = true) (code : Bytes) :
    Marked (before ++ (mark ++ encode code ++ behind)) mark (encode code) := by
  constructor
  case within => exact ⟨before, behind, rfl, hbefore, hbehind⟩
  case trimmed =>
    have hsolid : ∀ m ∈ [] :: marks, (m.all fun c => !Text.isBlank c) = true := by decide
    apply Text.trimmed_of_unbroken
    intro c hc
    rcases List.mem_append.mp hc with hc | hc
    · have hmarked := hsolid mark (List.mem_cons.mpr hmark)
      simpa using List.all_eq_true.mp hmarked c hc
    · exact forall_mem_encode (P := fun c => Text.isBlank c = false) (by decide) code c hc
  case mark =>
    rcases hmark with rfl | hmark
    · exact Or.inr ⟨rfl, fun m hm => not_isPrefix_encode hm code⟩
    · exact Or.inl hmark

end Hex

namespace Session
variable {σ : Type}

/-- What is read is what stands behind the mark. -/
theorem codeDigits_of_marked {text mark rest : List Char} (h : Hex.Marked text mark rest) :
    codeDigits text = rest := by
  rw [codeDigits, h.trim_eq]
  rcases h.mark with hm | ⟨rfl, hm⟩
  · simp only [Hex.marks, List.mem_cons, List.not_mem_nil, or_false] at hm
    rcases hm with rfl | rfl
    · rw [Text.dropStart?_append]
    · rfl
  · have hnone : ∀ m ∈ Hex.marks, Text.dropStart? m rest = none :=
      fun m hmem => Text.dropStart?_eq_none (hm m hmem)
    rw [List.nil_append, hnone _ (by simp [Hex.marks]), hnone _ (by simp [Hex.marks])]
    rfl

theorem disassembleText_of_denotes {text : String} {mark digits : List Char} {code : Bytes}
    (h : Hex.Marked text.toList mark digits) (hcode : Hex.Denotes digits code)
    (resolver : Resolver σ) (session : Session σ) :
    session.disassembleText resolver text = session.disassemble resolver code := by
  rw [disassembleText, codeDigits_of_marked h, hcode.decodeText]

theorem disassembleText_of_illegible {text : String} {mark rest : List Char}
    (h : Hex.Marked text.toList mark rest) (illegible : ¬ Hex.Legible rest)
    (resolver : Resolver σ) (session : Session σ) :
    ∃ fault, session.disassembleText resolver text =
      (.error (.invalidEncoding fault), session) := by
  obtain ⟨fault, hfault⟩ := Hex.exists_fault illegible
  exact ⟨fault, by rw [disassembleText, codeDigits_of_marked h, hfault]⟩

/-- A text is code exactly if an even number of digits is all that stands between the blanks around
it, behind a mark of hex or none. It is disassembled as the bytes that it denotes; any other text
leaves the session as it is. -/
theorem disassembleText_accepts (resolver : Resolver σ) (text : String) (session : Session σ) :
    (∃ mark rest, Hex.Marked text.toList mark rest) ∧
    (∀ mark rest, Hex.Marked text.toList mark rest →
      ((rest.length % 2 = 0 ∧ ∀ c ∈ rest, Hex.isDigit c = true) →
        ∃ code, Hex.Denotes rest code ∧
          session.disassembleText resolver text = session.disassemble resolver code) ∧
      (¬ (rest.length % 2 = 0 ∧ ∀ c ∈ rest, Hex.isDigit c = true) →
        ∃ fault, session.disassembleText resolver text =
            (.error (.invalidEncoding fault), session) ∧
          (DisassemblyError.invalidEncoding fault).kept? = none)) ∧
    ∀ before mark behind, (∀ c ∈ before, Text.isBlank c = true) → (mark = [] ∨ mark ∈ Hex.marks) →
      (∀ c ∈ behind, Text.isBlank c = true) → ∀ code,
        session.disassembleText resolver
            (String.ofList (before ++ (mark ++ Hex.encode code ++ behind))) =
          session.disassemble resolver code := by
  refine ⟨Hex.exists_marked _, ?_, ?_⟩
  · intro mark rest h
    constructor
    · rintro ⟨even, digits⟩
      obtain ⟨code, hcode⟩ := Hex.legible_iff.mp ⟨even, digits⟩
      exact ⟨code, hcode, disassembleText_of_denotes h hcode resolver session⟩
    · intro hnot
      obtain ⟨fault, hfault⟩ :=
        disassembleText_of_illegible h (fun hl => hnot ⟨hl.even, hl.digits⟩) resolver session
      exact ⟨fault, hfault, rfl⟩
  · intro before mark behind hbefore hmark hbehind code
    have hmarked : Hex.Marked (String.ofList (before ++ (mark ++ Hex.encode code ++ behind))).toList
        mark (Hex.encode code) := by
      rw [String.toList_ofList]
      exact Hex.marked_encode hbefore hmark hbehind code
    exact disassembleText_of_denotes hmarked (Hex.denotes_encode code) resolver session

/-- Digits in both cases behind a mark and among blanks are code; behind a second mark they are
none. -/
theorem disassembleText_accepts_spaced :
    let silent : Resolver Unit := fun _ memory => ⟨.ok [], [], memory⟩
    let start : Session Unit := { memory := () }
    (disassembleText silent " 0X60fF\n" start).1 = (disassemble silent [0x60, 0xff] start).1 ∧
      ∃ fault, disassembleText silent "0x0x60" start =
        (.error (.invalidEncoding fault), start) := by
  intro silent start
  have hspaced : Hex.Marked " 0X60fF\n".toList ['0', 'X'] ['6', '0', 'f', 'F'] :=
    ⟨⟨[' '], ['\n'], by simp, List.all_eq_true.mp (by decide), List.all_eq_true.mp (by decide)⟩,
      by decide, Or.inl (by simp [Hex.marks])⟩
  have htwice : Hex.Marked "0x0x60".toList ['0', 'x'] ['0', 'x', '6', '0'] :=
    ⟨⟨[], [], by simp, by simp, by simp⟩, by decide, Or.inl (by simp [Hex.marks])⟩
  obtain ⟨code, hcode, hsame⟩ :=
    ((disassembleText_accepts silent " 0X60fF\n" start).2.1 _ _ hspaced).1
      ⟨by decide, List.all_eq_true.mp (by decide)⟩
  obtain ⟨fault, hfault, _⟩ :=
    ((disassembleText_accepts silent "0x0x60" start).2.1 _ _ htwice).2
      fun hdigits => absurd (hdigits.2 'x' (by simp)) (by decide)
  have hbytes : code = [0x60, 0xff] := by
    apply Hex.encode_injective
    rw [← hcode]
    decide
  rw [hbytes] at hsame
  exact ⟨congrArg Prod.fst hsame, fault, hfault⟩

end Session
end EvmInspect
