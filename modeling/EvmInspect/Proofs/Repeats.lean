import EvmInspect.Disassembly.Direct
import EvmInspect.Proofs.Demand

namespace EvmInspect

namespace Findings

/-- Signatures that are already there are not added again. -/
theorem addNew_of_subset {found new : List String} (h : ∀ x ∈ new, x ∈ found) :
    addNew found new = found := by
  induction new with
  | nil => rfl
  | cons x new ih =>
    obtain ⟨hx, hnew⟩ := List.forall_mem_cons.mp h
    have hstep : addNew found (x :: new) =
        addNew (if x ∈ found then found else found ++ [x]) new := rfl
    rw [hstep, if_pos hx, ih hnew]

end Findings

namespace Session
variable {σ : Type} (resolver : Resolver σ)

/-- To go on gathering with a selector is to ask the cache for it, also when it was met before: the
answer is then what was found, and no signature in it is new. -/
theorem gather_cons {findings : Findings} {session : Session σ}
    (h : findings.AnsweredBy session.cache) (s : Selector) (rest : List Selector) :
    let asked := session.resolve resolver s
    ∃ later : Findings,
      session.gather resolver (s :: rest) findings = asked.2.gather resolver rest later ∧
      later.AnsweredBy asked.2.cache ∧ later.lookup s = some asked.1 ∧
      later.signatures = Findings.addNew findings.signatures asked.1 := by
  intro asked
  cases hs : findings.lookup s with
  | some known =>
    have hmem := mem_of_lookup hs
    have hasked : asked = (known, session) := resolve_known (h _ hmem)
    rw [hasked]
    refine ⟨findings, gather_cons_found (mem_keys_of_lookup hs) session, h, hs, ?_⟩
    exact (Findings.addNew_of_subset fun _ hx => Findings.mem_signatures.mpr ⟨_, hmem, hx⟩).symm
  | none =>
    refine ⟨findings ++ [(s, asked.1)], gather_cons_new (lookup_eq_none_iff_keys.mp hs) session,
      answeredBy_resolve h s, ?_, Findings.signatures_append_entry findings s asked.1⟩
    rw [List.lookup_append, hs, Option.none_or, List.lookup_cons_self]

/-- On top of findings that the cache agrees with, asking at every push gives the lines, the
signatures and the session that gathering gives. -/
theorem directLines_eq_gather (placed : List Placed) {findings : Findings} {session : Session σ}
    (h : findings.AnsweredBy session.cache) :
    let gathered := session.gather resolver (placed.filterMap Placed.selector?) findings
    session.directLines resolver placed findings.signatures =
      ((placed.map gathered.1.line, gathered.1.signatures), gathered.2) := by
  induction placed generalizing findings session with
  | nil => rfl
  | cons p placed ih =>
    intro gathered
    cases hp : p.selector? with
    | none =>
      have hgathered : gathered =
          session.gather resolver (placed.filterMap Placed.selector?) findings := by
        simp only [gathered, List.filterMap_cons_none hp]
      have hline : gathered.1.line p = p.line [] := by
        simp only [Findings.line, hp, Findings.candidates]
      simp only [directLines, hp, ih h, ← hgathered, List.map_cons, hline]
    | some s =>
      obtain ⟨later, hlater, hanswered, hfound, hsignatures⟩ :=
        gather_cons resolver h s (placed.filterMap Placed.selector?)
      have hgathered : gathered = (session.resolve resolver s).2.gather resolver
          (placed.filterMap Placed.selector?) later := by
        simp only [gathered, List.filterMap_cons_some hp, hlater]
      have hline : gathered.1.line p = p.line (session.resolve resolver s).1 := by
        have hkept : gathered.1.lookup s = some (session.resolve resolver s).1 := by
          rw [hgathered]
          exact lookup_of_isPrefix (isPrefix_gather _ later _) hfound
        simp only [Findings.line, hp, Findings.candidates, hkept, Option.getD_some]
      simp only [directLines, hp, ← hsignatures, ih hanswered, ← hgathered, List.map_cons, hline]

theorem disassemble_eq (code : Bytes) (session : Session σ) :
    session.disassemble resolver code = session.disassembleDirect resolver code := by
  have hempty : Findings.AnsweredBy [] session.cache := by simp [Findings.AnsweredBy]
  have hlines := directLines_eq_gather resolver (Sweep.scan code).placed hempty
  have hnone : Findings.signatures [] = [] := rfl
  rw [hnone] at hlines
  cases hcut : (Sweep.scan code).cut <;>
    simp only [disassemble, disassembleDirect, hlines, hcut, Findings.disassembly]

/-- Whatever the resolver answers, it makes no difference to ask the cache at every push: the result
is the same, and so are the cache, its count of questions and all that the resolver is asked. -/
theorem disassemble_eq_direct (code : Bytes) :
    (∀ session : Session σ,
      session.disassemble resolver code = session.disassembleDirect resolver code) ∧
    ∀ recording : Session (Inquiries × σ),
      let direct := recording.disassembleDirect resolver.recorded code
      recording.disassemble resolver.recorded code = direct ∧
        recording.unrecorded.disassembleDirect resolver code =
          (direct.1, direct.2.unrecorded) := by
  refine ⟨disassemble_eq resolver code, ?_⟩
  intro recording direct
  have hdirect : recording.disassemble resolver.recorded code = direct :=
    disassemble_eq resolver.recorded code recording
  refine ⟨hdirect, ?_⟩
  rw [← disassemble_eq, disassemble_unrecorded, hdirect]

end Session
end EvmInspect
