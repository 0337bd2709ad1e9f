import EvmInspect.Sweep

namespace EvmInspect

/-- An offset at which the sweep over a code stands. -/
inductive Boundary (code : Bytes) : Nat → Prop
  | start : Boundary code 0
  | next {pc : Nat} {opcode : UInt8} (at_pc : Boundary code pc) (found : code[pc]? = some opcode)
      (fits : pc + (Instruction.ofOpcode opcode).size ≤ code.length) :
      Boundary code (pc + (Instruction.ofOpcode opcode).size)

namespace Step

/-- A step is found exactly where there is a byte. -/
theorem decode_eq_none_iff {code : Bytes} {pc : Nat} :
    decode code pc = none ↔ code.length ≤ pc := by
  unfold decode
  cases h : code.drop pc with
  | nil => simpa [read] using h
  | cons opcode rest =>
    have hlt : pc < code.length := by
      have := congrArg List.length h
      simp only [List.length_drop, List.length_cons] at this
      omega
    simp only [read]
    split <;> simp [hlt]

theorem read_whole {pc : Nat} {bytes : Bytes} {p : Placed} (h : read pc bytes = some (.whole p)) :
    ∃ opcode rest, bytes = opcode :: rest ∧ p.instruction = Instruction.ofOpcode opcode ∧
      p.pc = pc ∧ p.immediate = rest.take p.instruction.immediateLength ∧
      p.immediate.length = p.instruction.immediateLength := by
  cases bytes with
  | nil => simp [read] at h
  | cons opcode rest =>
    simp only [read] at h
    split at h
    · simp at h
    · next hlen =>
      simp only [Option.some.injEq, Step.whole.injEq] at h
      subst h
      refine ⟨opcode, rest, rfl, rfl, rfl, rfl, ?_⟩
      simp only [List.length_take] at hlen ⊢
      omega

theorem read_truncated {pc : Nat} {bytes : Bytes} {c : Cut}
    (h : read pc bytes = some (.truncated c)) :
    ∃ opcode rest, bytes = opcode :: rest ∧ c.instruction = Instruction.ofOpcode opcode ∧
      c.pc = pc ∧ c.available = rest.length ∧ rest.length < c.instruction.immediateLength := by
  cases bytes with
  | nil => simp [read] at h
  | cons opcode rest =>
    simp only [read] at h
    split at h
    · next hlen =>
      simp only [Option.some.injEq, Step.truncated.injEq] at h
      subst h
      refine ⟨opcode, rest, rfl, rfl, rfl, rfl, ?_⟩
      simp only [List.length_take] at hlen ⊢
      omega
    · simp at h

end Step

namespace Sweep

/-- Every instruction of a sweep stands at a boundary, and so does what is cut off. -/
theorem boundary_of_scanFrom {code before bytes : Bytes} (hcode : code = before ++ bytes)
    (hb : Boundary code before.length) :
    (∀ p ∈ (scanFrom before.length bytes).placed, Boundary code p.pc) ∧
    ∀ c, (scanFrom before.length bytes).cut = some c → Boundary code c.pc := by
  match bytes with
  | [] => simp [scanFrom]
  | opcode :: rest =>
    rw [scanFrom]
    cases hr : Step.read before.length (opcode :: rest) with
    | none => simp
    | some step =>
      cases step with
      | truncated c =>
        obtain ⟨o, r, _, _, hpc, _⟩ := Step.read_truncated hr
        refine ⟨by simp, fun d hd => ?_⟩
        simp only [Option.some.injEq] at hd
        subst d
        exact hpc ▸ hb
      | whole p =>
        obtain ⟨o, r, he, hi, hpc, himm, hlen⟩ := Step.read_whole hr
        simp only [List.cons.injEq] at he
        obtain ⟨rfl, rfl⟩ := he
        have hsize : p.instruction.immediateLength ≤ rest.length := by
          have := congrArg List.length himm
          simp only [List.length_take] at this
          omega
        have hcut : code = (before ++ opcode :: rest.take p.instruction.immediateLength) ++
            rest.drop p.instruction.immediateLength := by
          simp [hcode]
        have hlength : before.length + p.instruction.size =
            (before ++ opcode :: rest.take p.instruction.immediateLength).length := by
          simp only [Instruction.size, List.length_append, List.length_cons, List.length_take]
          omega
        have hfound : code[before.length]? = some opcode := by simp [hcode]
        have hnext : Boundary code (before.length + p.instruction.size) := by
          rw [hi]
          refine hb.next hfound ?_
          rw [← hi, hlength, hcode]
          simp only [List.length_append, List.length_cons, List.length_take]
          omega
        rw [hlength] at hnext
        have ih := boundary_of_scanFrom hcut hnext
        rw [← hlength] at ih
        refine ⟨fun q hq => ?_, ih.2⟩
        rcases List.mem_cons.mp hq with rfl | hq
        · exact hpc ▸ hb
        · exact ih.1 q hq
termination_by bytes.length
decreasing_by simp only [List.length_drop, List.length_cons]; omega

end Sweep
end EvmInspect
