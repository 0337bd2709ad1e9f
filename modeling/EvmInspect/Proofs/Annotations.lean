import EvmInspect.Proofs.Detection
import EvmInspect.Proofs.Matching
import EvmInspect.Proofs.RoundTrip

namespace EvmInspect

/-- A signature that is written as it is hashed has, once matched, the selector of its text. -/
theorem Descriptor.selector_ofText {x : String} (h : (Signature.ofText x).canonical = x) :
    (Descriptor.ofText x).selector = Selector.ofSignature x := by
  have hunannotated : Registry.collapsed x ∉ Registry.annotatedKeys := by
    intro ha
    apply Registry.collapse_canonical_ne (Signature.legible_ofText x) ha
    rw [h, Registry.collapsed, String.toList_ofList]
  rw [Descriptor.selector, Descriptor.canonical_ofText hunannotated, h]

namespace Abi

/-- The selector in front of the arguments is passed over. -/
theorem decodeArguments_strip (d : Descriptor) (data : Bytes) :
    decodeArguments d (d.selector.toBytes ++ data) true = decodeArguments d data false := by
  cases h : paramTypes d.inputs with
  | error e => rw [decodeArguments, decodeArguments, h, except_bind_error, except_bind_error]
  | ok types => rw [decodeArguments_call h, decodeArguments_plain h]

end Abi

/-- Only the push of a selector with candidates shows them. -/
theorem Placed.note_line {p : Placed} {candidates shown : List String}
    (h : (p.line candidates).note = some (.signatures shown)) :
    p.instruction.opcode = Instruction.push4 ∧ shown = candidates ∧ candidates ≠ [] := by
  by_cases hpush : p.instruction.opcode = Instruction.push4
  · cases candidates with
    | nil =>
      rw [line, if_pos hpush] at h
      cases h
    | cons first rest =>
      rw [line, if_pos hpush] at h
      cases h
      exact ⟨hpush, rfl, List.cons_ne_nil first rest⟩
  · rw [line, if_neg hpush] at h
    split at h
    · cases hfront : embeddedText? p.immediate with
      | none =>
        rw [hfront] at h
        cases h
      | some front =>
        rw [hfront] at h
        cases h
    · cases h

namespace Findings

/-- The candidates on a line are those of the selector that the line pushes. -/
theorem note_line {findings : Findings} {p : Placed} {shown : List String}
    (h : (findings.line p).note = some (.signatures shown)) :
    ∃ s, (findings.line p).instruction.opcode = Instruction.push4 ∧
      (findings.line p).args = [s.toBytes] ∧ (s, shown) ∈ findings := by
  obtain ⟨hop, rfl, hne⟩ := Placed.note_line h
  cases hs : p.selector? with
  | none => exact absurd (by rw [hs, candidates]) hne
  | some s =>
    obtain ⟨_, himm⟩ := Placed.selector?_eq_some.mp hs
    refine ⟨s, ?_, ?_, ?_⟩
    · rw [line, p.instruction_line, hop]
    · rw [line, Placed.args_line_push4 hop, himm]
      rfl
    · rw [hs, candidates] at hne
      rw [candidates]
      cases hl : findings.lookup s with
      | none => exact absurd (by rw [hl, Option.getD_none]) hne
      | some found => exact mem_of_lookup hl

end Findings

def Resolver.knowing (x : String) : Resolver Unit :=
  fun s memory => ⟨.ok (if Selector.ofSignature x = s then [x] else []), [], memory⟩

theorem Resolver.Honest.knowing (x : String) : (Resolver.knowing x).Honest := by
  intro s memory y hy
  change y ∈ (if Selector.ofSignature x = s then [x] else []) at hy
  split at hy
  · rename_i hsame
    rw [List.mem_singleton.mp hy]
    exact hsame
  · cases hy

namespace Session
variable {σ : Type} {resolver : Resolver σ}

/-- The candidates of each selector that was met have that selector. -/
theorem truthful_gather {session : Session σ} (honest : resolver.Honest)
    (filled : session.cache.FilledBy resolver) {sels : List Selector}
    {entry : Selector × List String} (h : entry ∈ (session.gather resolver sels []).1) :
    ∀ x ∈ entry.2, Selector.ofSignature x = entry.1 := by
  intro x hx
  rcases source_of_mem_gather filled h hx with ⟨found, hb, hf⟩ | ⟨memory, hm⟩
  · exact Builtin.ofSignature_eq_key _ hb x hf
  · exact honest hm

/-- In whatever code, if the resolver is honest, each candidate on a line has the selector that the
line pushes. One in canonical form describes a function whose calls begin with that selector. -/
theorem disassemble_annotates (resolver : Resolver σ) (code : Bytes) (session : Session σ) :
    ∃ d, ((session.disassemble resolver code).1 = .ok d ∨
        ∃ cut, (session.disassemble resolver code).1 = .error (.truncated cut d)) ∧
      (resolver.Honest → session.cache.FilledBy resolver →
        ∀ line ∈ d.lines, ∀ candidates, line.note = some (.signatures candidates) →
          ∃ s : Selector, line.instruction.opcode = 0x63 ∧ line.args = [s.toBytes] ∧
            ∀ x ∈ candidates, Selector.ofSignature x = s ∧
              ((Signature.ofText x).canonical = x →
                (Descriptor.ofText x).selector = s ∧
                ∀ data, Abi.decodeArguments (Descriptor.ofText x) (s.toBytes ++ data) true =
                  Abi.decodeArguments (Descriptor.ofText x) data false)) := by
  refine ⟨session.finding resolver code, ?_, ?_⟩
  · cases hcut : (Sweep.scan code).cut with
    | none => exact Or.inl (disassemble_whole hcut resolver session)
    | some cut => exact Or.inr ⟨cut, disassemble_broken hcut resolver session⟩
  · intro honest filled line hline candidates hnote
    obtain ⟨p, _, rfl⟩ := List.mem_map.mp hline
    obtain ⟨s, hop, hargs, hmem⟩ := Findings.note_line hnote
    refine ⟨s, hop, hargs, ?_⟩
    intro x hx
    have hs : Selector.ofSignature x = s := truthful_gather honest filled hmem x hx
    refine ⟨hs, ?_⟩
    intro hcanonical
    have hselector := (Descriptor.selector_ofText hcanonical).trans hs
    refine ⟨hselector, ?_⟩
    intro data
    rw [← hselector, Abi.decodeArguments_strip]

/-- A push of the selector of a function that is not built in. -/
def harvest : Bytes :=
  0x63 :: (Selector.ofSignature "harvest(uint256[2],bool)").toBytes

theorem disassemble_annotates_harvest :
    (Resolver.knowing "harvest(uint256[2],bool)").Honest ∧
      Cache.FilledBy {} (Resolver.knowing "harvest(uint256[2],bool)") ∧
      ∃ d, (disassemble (Resolver.knowing "harvest(uint256[2],bool)") harvest
          { memory := () }).1 = .ok d ∧
        ∃ line ∈ d.lines, line.note = some (.signatures ["harvest(uint256[2],bool)"]) ∧
          line.args = [(Descriptor.ofText "harvest(uint256[2],bool)").selector.toBytes] := by
  have honest := Resolver.Honest.knowing "harvest(uint256[2],bool)"
  have hcut : (Sweep.scan harvest).cut = none := by decide +kernel
  have hwhole := disassemble_whole hcut
    (Resolver.knowing "harvest(uint256[2],bool)") { memory := () }
  obtain ⟨d, hd, hall⟩ := disassemble_annotates (Resolver.knowing "harvest(uint256[2],bool)")
    harvest { memory := () }
  have hfinding : finding (Resolver.knowing "harvest(uint256[2],bool)") harvest
      { memory := () } = d := by
    rcases hd with hd | ⟨_, hd⟩
    · exact Except.ok.inj (hwhole.symm.trans hd)
    · rw [hwhole] at hd
      cases hd
  have hnotes : d.lines.map Line.note = [some (.signatures ["harvest(uint256[2],bool)"])] := by
    rw [← hfinding]
    decide +kernel
  obtain ⟨line, hline, hnote⟩ : ∃ line ∈ d.lines,
      line.note = some (.signatures ["harvest(uint256[2],bool)"]) := by
    apply List.mem_map.mp
    rw [hnotes]
    exact List.mem_singleton_self _
  obtain ⟨s, _, hargs, hcandidates⟩ := hall honest filledBy_start line hline _ hnote
  have hselector := ((hcandidates _ (List.mem_singleton_self _)).2 (by decide +kernel)).1
  refine ⟨honest, filledBy_start, d, hfinding ▸ hwhole, line, hline, hnote, ?_⟩
  rw [hargs, hselector]

end Session
end EvmInspect
