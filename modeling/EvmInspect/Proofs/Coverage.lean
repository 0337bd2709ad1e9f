import EvmInspect.Disassembly.Run
import EvmInspect.Proofs.Tiling

namespace EvmInspect

/-- The word begins with the text, which a zero ends: seven-bit bytes, at least one. -/
def BeginsWithText (word front : Bytes) : Prop :=
  ∃ rest, word = front ++ 0 :: rest ∧ front ≠ [] ∧ ∀ b ∈ front, b ≠ 0 ∧ b < 0x80

theorem takeWhile_append_zero {front rest : Bytes} (h : ∀ b ∈ front, b ≠ 0) :
    (front ++ 0 :: rest).takeWhile (· != 0) = front := by
  rw [List.takeWhile_append_of_pos]
  · simp
  · intro b hb
    simpa using h b hb

theorem embeddedText?_eq_some {word front : Bytes} :
    embeddedText? word = some front ↔ BeginsWithText word front := by
  unfold embeddedText?
  dsimp only
  constructor
  · intro h
    split at h
    · rename_i hc
      obtain rfl := Option.some.inj h
      obtain ⟨hlt, hne, hall⟩ := hc
      have hsplit := List.takeWhile_append_dropWhile (p := fun b : UInt8 => b != 0) (l := word)
      cases hd : word.dropWhile (· != 0) with
      | nil =>
        rw [hd, List.append_nil] at hsplit
        rw [hsplit] at hlt
        omega
      | cons b rest =>
        have hb : b = 0 := by
          have := List.head?_dropWhile_not (fun b : UInt8 => b != 0) word
          simpa [hd] using this
        rw [hd, hb] at hsplit
        refine ⟨rest, hsplit.symm, hne, ?_⟩
        intro c hc
        have hzero := List.all_eq_true.mp List.all_takeWhile c hc
        have hseven := List.all_eq_true.mp hall c hc
        exact ⟨by simpa using hzero, by simpa using hseven⟩
    · cases h
  · rintro ⟨rest, rfl, hne, hall⟩
    rw [takeWhile_append_zero (fun b hb => (hall b hb).1)]
    rw [if_pos]
    refine ⟨by simp, hne, ?_⟩
    apply List.all_eq_true.mpr
    intro b hb
    simpa using (hall b hb).2

/-- Seven-bit bytes are the text that they spell. -/
theorem encode_ascii {front : Bytes} (h : ∀ b ∈ front, b < 0x80) :
    Text.Utf8.encode (front.map fun b => Char.ofNat b.toNat) = front := by
  have one : ∀ b : UInt8, b < 0x80 → String.utf8EncodeChar (Char.ofNat b.toNat) = [b] := by
    have all : ∀ n : Fin 128, String.utf8EncodeChar (Char.ofNat n) = [UInt8.ofNat n] := by decide
    intro b hb
    have hn := all ⟨b.toNat, by simpa [UInt8.lt_iff_toNat_lt] using hb⟩
    simpa using hn
  induction front with
  | nil => rfl
  | cons b front ih =>
    have ih := ih (fun c hc => h c (List.mem_cons_of_mem b hc))
    rw [Text.Utf8.encode] at ih ⊢
    rw [List.map_cons, List.flatMap_cons, one b (h b List.mem_cons_self), ih]
    rfl

namespace Placed

theorem line_place (p : Placed) (candidates : List String) :
    (p.line candidates).instruction = p.instruction ∧ (p.line candidates).pc = p.pc := by
  unfold line
  dsimp only
  split
  · exact ⟨rfl, rfl⟩
  · split
    · cases embeddedText? p.immediate <;> exact ⟨rfl, rfl⟩
    · exact ⟨rfl, rfl⟩

@[simp]
theorem instruction_line (p : Placed) (candidates : List String) :
    (p.line candidates).instruction = p.instruction :=
  (p.line_place candidates).1

@[simp]
theorem pc_line (p : Placed) (candidates : List String) : (p.line candidates).pc = p.pc :=
  (p.line_place candidates).2

end Placed

def Line.immediate (code : Bytes) (line : Line) : Bytes :=
  (code.drop (line.pc + 1)).take line.instruction.immediateLength

structure Line.Shows (code : Bytes) (line : Line) : Prop where
  opcode : code[line.pc]? = some line.instruction.opcode ∧
    line.instruction = Instruction.ofOpcode line.instruction.opcode
  length : (line.immediate code).length = line.instruction.immediateLength
  whole : (line.instruction.opcode = 0x7f →
      ∀ front, ¬ BeginsWithText (line.immediate code) front) →
    line.args = if line.instruction.immediateLength = 0 then [] else [line.immediate code]
  front : ∀ front, line.instruction.opcode = 0x7f →
    BeginsWithText (line.immediate code) front → line.args = [front] ∧
      ∃ text, line.note = some (.text text) ∧ Text.Utf8.encode text.toList = front
  text : ∀ text, line.note = some (.text text) → line.instruction.opcode = 0x7f ∧
    ∃ front, BeginsWithText (line.immediate code) front
  signatures : ∀ candidates, line.note = some (.signatures candidates) →
    line.instruction.opcode = 0x63

theorem Placed.HeldBy.immediate_line {code : Bytes} {p : Placed} (h : p.HeldBy code)
    (candidates : List String) : (p.line candidates).immediate code = p.immediate := by
  rw [Line.immediate, p.instruction_line, p.pc_line, h.immediate]

theorem Placed.HeldBy.shows {code : Bytes} {p : Placed} (h : p.HeldBy code)
    (candidates : List String) : (p.line candidates).Shows code := by
  have hwhole : (if p.immediate.isEmpty then [] else [p.immediate]) =
      if p.instruction.immediateLength = 0 then [] else [p.immediate] := by
    rw [← h.length]
    cases p.immediate <;> simp
  obtain ⟨opcode, hop, hi⟩ := h.opcode
  have hopcode : p.instruction.opcode = opcode := by rw [hi, Instruction.opcode_ofOpcode]
  constructor
  case opcode =>
    rw [p.instruction_line, p.pc_line, hopcode]
    exact ⟨hop, hi⟩
  case length => rw [h.immediate_line, p.instruction_line, h.length]
  all_goals simp only [h.immediate_line, p.instruction_line]
  all_goals simp only [Placed.line, hwhole, Instruction.push4, Instruction.push32]
  case whole =>
    intro hno
    split
    · rfl
    · split
      · rename_i hp
        cases ht : embeddedText? p.immediate with
        | none => rfl
        | some front => exact absurd (embeddedText?_eq_some.mp ht) (hno hp front)
      · rfl
  case front =>
    intro front hp hb
    have hall : ∀ b ∈ front, b < 0x80 := by
      obtain ⟨_, _, _, hall⟩ := hb
      exact fun b hb => (hall b hb).2
    rw [if_neg (by rw [hp]; decide), if_pos hp, embeddedText?_eq_some.mpr hb]
    refine ⟨rfl, _, rfl, ?_⟩
    rw [String.toList_ofList]
    exact encode_ascii hall
  case text =>
    intro text
    split
    · split <;> simp
    · split
      · rename_i hp
        cases ht : embeddedText? p.immediate with
        | none => simp
        | some front => exact fun _ => ⟨hp, front, embeddedText?_eq_some.mp ht⟩
      · simp
  case signatures =>
    intro found
    split
    · rename_i hp
      exact fun _ => hp
    · split
      · cases ht : embeddedText? p.immediate <;> simp
      · simp

/-- Lines that cover the code from its first byte up to an offset: no byte of that range is passed
over, and none belongs to two lines. -/
structure Covers (code : Bytes) (lines : List Line) (stop : Nat) : Prop where
  first : ∀ line, lines.head? = some line → line.pc = 0
  next : ∀ (i : Nat) (line after : Line), lines[i]? = some line → lines[i + 1]? = some after →
    after.pc = line.pc + 1 + line.instruction.immediateLength
  last : (lines.getLast?.elim 0 fun line => line.pc + 1 + line.instruction.immediateLength) = stop
  once : ∀ x < stop, ∃! i : Nat, ∃ line : Line, lines[i]? = some line ∧ line.pc ≤ x ∧
    x < line.pc + 1 + line.instruction.immediateLength
  shows : ∀ line ∈ lines, line.Shows code

theorem Instruction.add_size (i : Instruction) (pc : Nat) :
    pc + i.size = pc + 1 + i.immediateLength :=
  (Nat.add_assoc pc 1 i.immediateLength).symm

/-- The lines of instructions that tile the code cover it, whatever candidates they are given. -/
theorem Tiles.covers {code : Bytes} {stop : Nat} {placed : List Placed}
    (h : Tiles code 0 placed stop) (findings : Findings) :
    Covers code (placed.map findings.line) stop := by
  have hline : ∀ p : Placed, (findings.line p).pc = p.pc ∧
      (findings.line p).instruction = p.instruction :=
    fun p => ⟨p.pc_line _, p.instruction_line _⟩
  constructor
  case first =>
    intro line hl
    rw [List.head?_map] at hl
    obtain ⟨p, hp, rfl⟩ := Option.map_eq_some_iff.mp hl
    rw [(hline p).1]
    exact h.head hp
  case next =>
    intro i line after hl ha
    rw [List.getElem?_map] at hl ha
    obtain ⟨p, hp, rfl⟩ := Option.map_eq_some_iff.mp hl
    obtain ⟨q, hq, rfl⟩ := Option.map_eq_some_iff.mp ha
    rw [(hline q).1, (hline p).1, (hline p).2, ← Instruction.add_size]
    exact h.adjacent hp hq
  case last =>
    have hlast := h.last
    rw [List.getLast?_map]
    cases hl : placed.getLast? with
    | none => simpa [hl] using hlast
    | some p => simpa [hl, hline, Instruction.add_size] using hlast
  case once =>
    intro x hx
    obtain ⟨i, ⟨p, hp, hpx⟩, hone⟩ := h.once (Nat.zero_le x) hx
    refine ⟨i, ⟨findings.line p, by rw [List.getElem?_map, hp]; rfl, ?_⟩, ?_⟩
    · rw [(hline p).1, (hline p).2, ← Instruction.add_size]
      exact hpx
    · rintro j ⟨line, hl, hlx⟩
      rw [List.getElem?_map] at hl
      obtain ⟨q, hq, rfl⟩ := Option.map_eq_some_iff.mp hl
      rw [(hline q).1, (hline q).2, ← Instruction.add_size] at hlx
      exact hone j ⟨q, hq, hlx⟩
  case shows =>
    intro line hl
    obtain ⟨p, hp, rfl⟩ := List.mem_map.mp hl
    exact (h.held p hp).shows _

namespace Session
variable {σ : Type}

/-- What disassembling a code finds, up to its end or to the instruction that it cuts off. -/
def finding (resolver : Resolver σ) (code : Bytes) (session : Session σ) : Disassembly :=
  let placed := (Sweep.scan code).placed
  (session.gather resolver (placed.filterMap Placed.selector?) []).1.disassembly placed code.length

theorem disassemble_whole {code : Bytes} (h : (Sweep.scan code).cut = none)
    (resolver : Resolver σ) (session : Session σ) :
    (session.disassemble resolver code).1 = .ok (session.finding resolver code) := by
  simp only [disassemble, h]
  rfl

theorem disassemble_broken {code : Bytes} {cut : Cut} (h : (Sweep.scan code).cut = some cut)
    (resolver : Resolver σ) (session : Session σ) :
    (session.disassemble resolver code).1 =
      .error (.truncated cut (session.finding resolver code)) := by
  simp only [disassemble, h]
  rfl

/-- Whether disassembling reaches the end or not, it gives what it found. -/
theorem disassemble_finding (resolver : Resolver σ) (code : Bytes) (session : Session σ) :
    (session.disassemble resolver code).1 = .ok (session.finding resolver code) ∨
      ∃ cut, (session.disassemble resolver code).1 =
        .error (.truncated cut (session.finding resolver code)) := by
  cases h : (Sweep.scan code).cut with
  | none => exact Or.inl (disassemble_whole h resolver session)
  | some cut => exact Or.inr ⟨cut, disassemble_broken h resolver session⟩

/-- Disassembling any code with any cache gives lines that cover it: all of it, or all up to the
instruction that it cuts off. -/
theorem disassemble_covers (resolver : Resolver σ) (code : Bytes) (session : Session σ) :
    (∃ d, (session.disassemble resolver code).1 = .ok d ∧ Covers code d.lines code.length) ∨
    ∃ cut d, (session.disassemble resolver code).1 = .error (.truncated cut d) ∧
      Covers code d.lines cut.pc ∧ cut.BrokenIn code := by
  obtain ⟨stop, tiles, ends⟩ := Sweep.tiles_scan code
  have hcovers : Covers code (session.finding resolver code).lines stop := tiles.covers _
  cases ends with
  | whole hcut hstop =>
    subst hstop
    exact Or.inl ⟨_, disassemble_whole hcut resolver session, hcovers⟩
  | broken cut hcut hstop hbroken =>
    subst hstop
    exact Or.inr ⟨cut, _, disassemble_broken hcut resolver session, hcovers, hbroken⟩

end Session
end EvmInspect
