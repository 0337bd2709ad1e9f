import EvmInspect.Proofs.Annotations
import EvmInspect.Proofs.Concatenation

namespace EvmInspect

def Disassembly.Shows (d : Disassembly) (x : String) : Prop :=
  ∃ line ∈ d.lines, ∃ candidates, line.note = some (.signatures candidates) ∧ x ∈ candidates

/-- A selector with candidates has them on the line that pushes it. -/
theorem Placed.note_line_push4 {p : Placed} {s : Selector} (h : p.selector? = some s)
    {candidates : List String} (some_candidate : candidates ≠ []) :
    (p.line candidates).note = some (.signatures candidates) := by
  obtain ⟨hop, _⟩ := Placed.selector?_eq_some.mp h
  cases candidates with
  | nil => exact absurd rfl some_candidate
  | cons first rest => simp [line, hop]

/-- What a line that pushes a selector shows depends on the selector alone. -/
theorem Placed.note_line_congr {p q : Placed} {s : Selector} (hp : p.selector? = some s)
    (hq : q.selector? = some s) (candidates : List String) :
    (p.line candidates).note = (q.line candidates).note := by
  obtain ⟨hop, _⟩ := Placed.selector?_eq_some.mp hp
  obtain ⟨hoq, _⟩ := Placed.selector?_eq_some.mp hq
  simp only [line, hop, hoq, if_true]

namespace Findings

/-- Where each selector was met once, and all of them are pushed, the lines show what was found. -/
theorem shows_iff {findings : Findings} {placed : List Placed} {n : Nat}
    (once : (findings.map Prod.fst).Nodup)
    (met : ∀ s, s ∈ findings.map Prod.fst ↔ s ∈ placed.filterMap Placed.selector?) {x : String} :
    (findings.disassembly placed n).Shows x ↔ x ∈ findings.signatures := by
  rw [mem_signatures]
  constructor
  · rintro ⟨line, hline, candidates, hnote, hx⟩
    obtain ⟨p, _, rfl⟩ := List.mem_map.mp hline
    obtain ⟨s, _, _, hentry⟩ := note_line hnote
    exact ⟨(s, candidates), hentry, hx⟩
  · rintro ⟨⟨s, found⟩, hentry, hx⟩
    obtain ⟨p, hp, hs⟩ := List.mem_filterMap.mp ((met s).mp (List.mem_map.mpr ⟨_, hentry, rfl⟩))
    have hline : findings.line p = p.line found := by
      rw [line, hs, candidates, lookup_of_mem once hentry, Option.getD_some]
    refine ⟨findings.line p, List.mem_map.mpr ⟨p, hp, rfl⟩, found, ?_, hx⟩
    rw [hline]
    exact Placed.note_line_push4 hs (List.ne_nil_of_mem hx)

end Findings

/-- The push of a selector has four bytes. -/
theorem Placed.HeldBy.exists_selector {code : Bytes} {p : Placed} (h : p.HeldBy code)
    (push : p.instruction.opcode = Instruction.push4) : ∃ s, p.selector? = some s := by
  obtain ⟨opcode, _, hi⟩ := h.opcode
  have hopcode : opcode = Instruction.push4 := by
    rw [← push, hi, Instruction.opcode_ofOpcode]
  have hlen : p.immediate.length = 4 := by
    rw [h.length, hi, hopcode]
    decide
  match himm : p.immediate with
  | [a, b, c, d] => exact ⟨⟨a, b, c, d⟩, Placed.selector?_eq_some.mpr ⟨push, himm⟩⟩
  | [] | [_] | [_, _] | [_, _, _] | _ :: _ :: _ :: _ :: _ :: _ => simp [himm] at hlen

namespace Session
variable {σ : Type} {resolver : Resolver σ}

/-- A line that pushes a selector stands for an instruction that the code holds. -/
theorem pushed_of_line {code : Bytes} {session : Session σ} {line : Line}
    (h : line ∈ (session.finding resolver code).lines)
    (push : line.instruction.opcode = Instruction.push4) :
    ∃ (p : Placed) (s : Selector), p.selector? = some s ∧ line.args = [s.toBytes] ∧
      line = p.line ((session.gather resolver
        ((Sweep.scan code).placed.filterMap Placed.selector?) []).1.candidates (some s)) := by
  obtain ⟨p, hp, rfl⟩ := List.mem_map.mp h
  rw [Findings.line, p.instruction_line] at push
  obtain ⟨_, tiles, _⟩ := Sweep.tiles_scan code
  obtain ⟨s, hs⟩ := (tiles.held p hp).exists_selector push
  have himm := (Placed.selector?_eq_some.mp hs).2
  refine ⟨p, s, hs, ?_, ?_⟩
  · rw [Findings.line, Placed.args_line_push4 push, himm]
    rfl
  · rw [Findings.line, hs]

theorem mem_signatures_iff_shows (resolver : Resolver σ) (code : Bytes) (session : Session σ)
    {x : String} : x ∈ (session.finding resolver code).signatures ↔
      (session.finding resolver code).Shows x := by
  have once : ((session.gather resolver
      ((Sweep.scan code).placed.filterMap Placed.selector?) []).1.map Prod.fst).Nodup :=
    nodup_keys_gather List.nodup_nil
  refine (Findings.shows_iff once ?_).symm
  intro s
  rw [mem_keys_gather]
  simp

/-- Each signature is listed once, and the signatures are those that the lines show. Lines that push
the same selector show the same. -/
theorem disassemble_discovers (resolver : Resolver σ) (code : Bytes) (session : Session σ) :
    ∃ d, ((session.disassemble resolver code).1 = .ok d ∨
        ∃ cut, (session.disassemble resolver code).1 = .error (.truncated cut d)) ∧
      d.signatures.Nodup ∧ (∀ x, x ∈ d.signatures ↔ d.Shows x) ∧
      (∀ line ∈ d.lines, line.instruction.opcode = 0x63 →
        ∃ s : Selector, line.args = [s.toBytes] ∧
          ∀ other ∈ d.lines, other.instruction.opcode = 0x63 →
            other.args = [s.toBytes] → other.note = line.note) ∧
      ∀ interface, d.implements interface = true ↔ ∀ x ∈ interface, d.Shows x := by
  have hshows : ∀ x, x ∈ (session.finding resolver code).signatures ↔
      (session.finding resolver code).Shows x :=
    fun _ => mem_signatures_iff_shows resolver code session
  refine ⟨session.finding resolver code, disassemble_finding resolver code session,
    Findings.nodup_signatures _, hshows, ?_, ?_⟩
  · intro line hline hpush
    obtain ⟨p, s, hp, hargs, hl⟩ := pushed_of_line hline hpush
    refine ⟨s, hargs, ?_⟩
    intro other hother hopush hoargs
    obtain ⟨q, t, hq, htargs, ho⟩ := pushed_of_line hother hopush
    obtain rfl : s = t := by
      have hbytes : s.toBytes = t.toBytes := by simpa [hoargs] using htargs
      have hread := congrArg Selector.ofBytes? hbytes
      simpa using hread
    rw [hl, ho]
    exact Placed.note_line_congr hq hp _
  · intro interface
    rw [Disassembly.implements, List.all_eq_true]
    apply forall₂_congr
    intro x _
    rw [List.contains_iff_mem, hshows]

/-- The same selector twice, before a push that the code cuts off: both lines show the signature,
which is listed once. -/
theorem disassemble_discovers_repeated :
    ∃ d, (∃ cut, (disassemble frobnicating (pushed ++ (pushed ++ [0x63, 0x01]))
          { memory := () }).1 = .error (.truncated cut d)) ∧
      d.lines.map Line.args = List.replicate 2 [[0xde, 0xad, 0xbe, 0xef]] ∧
      d.Shows "frobnicate(uint256)" ∧ d.implements ["frobnicate(uint256)"] = true ∧
      d.signatures = ["frobnicate(uint256)"] := by
  have hcut : (Sweep.scan (pushed ++ (pushed ++ [0x63, 0x01]))).cut =
      some ⟨Instruction.ofOpcode 0x63, 10, 1⟩ := by decide +kernel
  have hbroken := disassemble_broken hcut frobnicating { memory := () }
  obtain ⟨d, hd, _, hshows, _, himplements⟩ :=
    disassemble_discovers frobnicating (pushed ++ (pushed ++ [0x63, 0x01])) { memory := () }
  have hfinding : finding frobnicating (pushed ++ (pushed ++ [0x63, 0x01]))
      { memory := () } = d := by
    rcases hd with hd | ⟨_, hd⟩
    · rw [hbroken] at hd
      cases hd
    · rw [hbroken] at hd
      exact (DisassemblyError.truncated.inj (Except.error.inj hd)).2
  have hsignatures : d.signatures = ["frobnicate(uint256)"] := by
    rw [← hfinding]
    decide +kernel
  have hshown : d.Shows "frobnicate(uint256)" := (hshows _).mp (by simp [hsignatures])
  refine ⟨d, ⟨_, hfinding ▸ hbroken⟩, ?_, hshown, ?_, hsignatures⟩
  · rw [← hfinding]
    decide +kernel
  · apply (himplements _).mpr
    intro x hx
    rw [List.mem_singleton.mp hx]
    exact hshown

end Session
end EvmInspect
