import EvmInspect.Proofs.Detection

namespace EvmInspect

/-- Whatever the resolver remembers, it has the same candidates for the same selector. -/
def Resolver.Steady {σ : Type} (resolver : Resolver σ) (answers : Selector → List String) : Prop :=
  ∀ s memory, (resolver s memory).candidates = answers s

/-- The candidates of a selector: those built in, or else the answer for it. -/
def Selector.settled (answers : Selector → List String) (s : Selector) : List String :=
  (Builtin.candidates? s).getD (answers s)

def Placed.settledLine (answers : Selector → List String) (p : Placed) : Line :=
  p.line ((p.selector?.map (Selector.settled answers)).getD [])

variable {σ : Type} {resolver : Resolver σ} {answers : Selector → List String}

theorem Cache.FilledBy.known_settled {cache : Cache} (filled : cache.FilledBy resolver)
    (steady : resolver.Steady answers) {s : Selector} {found : List String}
    (h : cache.known? s = some found) : found = s.settled answers := by
  cases hb : Builtin.candidates? s with
  | some built =>
    rw [Cache.known?_of_builtin hb] at h
    rw [Selector.settled, hb]
    exact (Option.some.inj h).symm
  | none =>
    rw [Cache.known?_of_not_builtin hb] at h
    obtain ⟨memory, hm⟩ := filled s found (mem_of_lookup h)
    rw [Selector.settled, hb, hm]
    exact steady s memory

namespace Session

theorem settled_of_mem_gather {session : Session σ} (filled : session.cache.FilledBy resolver)
    (steady : resolver.Steady answers) {sels : List Selector} {entry : Selector × List String}
    (h : entry ∈ (session.gather resolver sels []).1) : entry.2 = entry.1.settled answers :=
  (filledBy_gather filled).known_settled steady (answer_of_mem h)

theorem candidates_gather {session : Session σ} (filled : session.cache.FilledBy resolver)
    (steady : resolver.Steady answers) {sels : List Selector} {s : Selector} (h : s ∈ sels) :
    (session.gather resolver sels []).1.candidates (some s) = s.settled answers := by
  have hkey : s ∈ (session.gather resolver sels []).1.map Prod.fst := mem_keys_gather.mpr (Or.inr h)
  cases hl : (session.gather resolver sels []).1.lookup s with
  | none => exact absurd hkey (lookup_eq_none_iff_keys.mp hl)
  | some found =>
    rw [Findings.candidates, hl]
    exact settled_of_mem_gather filled steady (mem_of_lookup hl)

/-- The lines show the settled candidates. -/
theorem lines_finding {session : Session σ} (filled : session.cache.FilledBy resolver)
    (steady : resolver.Steady answers) (code : Bytes) :
    (session.finding resolver code).lines =
      (Sweep.scan code).placed.map (Placed.settledLine answers) := by
  apply List.map_congr_left
  intro p hp
  rw [Findings.line, Placed.settledLine]
  cases hs : p.selector? with
  | none => rfl
  | some s =>
    rw [candidates_gather filled steady (List.mem_filterMap.mpr ⟨p, hp, hs⟩)]
    rfl

/-- The signatures are the settled candidates of the selectors that the code pushes. -/
theorem mem_signatures_finding {session : Session σ} (filled : session.cache.FilledBy resolver)
    (steady : resolver.Steady answers) {code : Bytes} {x : String} :
    x ∈ (session.finding resolver code).signatures ↔
      ∃ s ∈ (Sweep.scan code).placed.filterMap Placed.selector?, x ∈ s.settled answers := by
  rw [finding, Findings.disassembly, Findings.mem_signatures]
  constructor
  · rintro ⟨entry, he, hx⟩
    rw [settled_of_mem_gather filled steady he] at hx
    refine ⟨entry.1, ?_, hx⟩
    have hkey := mem_keys_gather.mp (List.mem_map.mpr ⟨entry, he, rfl⟩)
    simpa using hkey
  · rintro ⟨s, hs, hx⟩
    obtain ⟨entry, he, rfl⟩ := List.mem_map.mp (mem_keys_gather.mpr (Or.inr hs))
    exact ⟨entry, he, by rwa [settled_of_mem_gather filled steady he]⟩

end Session
end EvmInspect
