import EvmInspect.Interface
import EvmInspect.Proofs.Coverage
import EvmInspect.Proofs.Gathering
import EvmInspect.Selector.Builtin.Lemmas

namespace EvmInspect

def Disassembly.Pushes (d : Disassembly) (s : Selector) : Prop :=
  ∃ line ∈ d.lines, line.instruction.opcode = 0x63 ∧ line.args = [s.toBytes]

/-- Whatever the resolver remembers, each signature in an answer has the selector in question. -/
def Resolver.Honest {σ : Type} (resolver : Resolver σ) : Prop :=
  ∀ ⦃s memory x⦄, x ∈ (resolver s memory).candidates → Selector.ofSignature x = s

theorem Resolver.Honest.offline : Resolver.offline.Honest := by
  intro s memory x hx
  cases hx

/-- All that was learned are answers of the resolver. -/
def Cache.FilledBy {σ : Type} (cache : Cache) (resolver : Resolver σ) : Prop :=
  ∀ s found, (s, found) ∈ cache.learned → ∃ memory, found = (resolver s memory).candidates

namespace Session
variable {σ : Type} {resolver : Resolver σ}

theorem filledBy_start : Cache.FilledBy {} resolver := by
  intro s found h
  cases h

theorem filledBy_resolve {session : Session σ} (h : session.cache.FilledBy resolver)
    (s : Selector) : (session.resolve resolver s).2.cache.FilledBy resolver := by
  cases hk : session.cache.known? s with
  | some found =>
    rw [resolve_known hk]
    exact h
  | none =>
    rw [resolve_unknown hk]
    intro t found hm
    rcases List.mem_append.mp hm with hm | hm
    · exact h t found hm
    · obtain ⟨rfl, rfl⟩ := Prod.mk.inj (List.mem_singleton.mp hm)
      exact ⟨session.memory, rfl⟩

theorem filledBy_gather {sels : List Selector} {findings : Findings} {session : Session σ}
    (h : session.cache.FilledBy resolver) :
    (session.gather resolver sels findings).2.cache.FilledBy resolver :=
  gather_keeps (P := fun session => session.cache.FilledBy resolver)
    (fun _ s h => filledBy_resolve h s) h

theorem cache_disassemble (resolver : Resolver σ) (code : Bytes) (session : Session σ) :
    (session.disassemble resolver code).2.cache =
      (session.gather resolver
        ((Sweep.scan code).placed.filterMap Placed.selector?) []).2.cache := by
  cases h : (Sweep.scan code).cut <;> simp only [disassemble, h, record]

theorem filledBy_disassemble {session : Session σ} (h : session.cache.FilledBy resolver)
    (code : Bytes) : (session.disassemble resolver code).2.cache.FilledBy resolver := by
  rw [cache_disassemble]
  exact filledBy_gather h

end Session

theorem Placed.selector?_eq_some {p : Placed} {s : Selector} :
    p.selector? = some s ↔
      p.instruction.opcode = Instruction.push4 ∧ p.immediate = s.toBytes := by
  unfold selector?
  split
  · rename_i hp
    constructor
    · exact fun h => ⟨hp, (Selector.toBytes_of_ofBytes? h).symm⟩
    · rintro ⟨_, h⟩
      rw [h, Selector.ofBytes?_toBytes]
  · rename_i hp
    simp [hp]

theorem Placed.args_line_push4 {p : Placed} (h : p.instruction.opcode = Instruction.push4)
    (candidates : List String) :
    (p.line candidates).args = if p.immediate.isEmpty then [] else [p.immediate] := by
  simp only [line, if_pos h]

theorem Findings.pushes_disassembly {findings : Findings} {placed : List Placed} {n : Nat}
    {s : Selector} :
    (findings.disassembly placed n).Pushes s ↔ s ∈ placed.filterMap Placed.selector? := by
  constructor
  · rintro ⟨line, hl, hop, hargs⟩
    obtain ⟨p, hp, rfl⟩ := List.mem_map.mp hl
    rw [Findings.line, p.instruction_line] at hop
    rw [Findings.line, Placed.args_line_push4 hop] at hargs
    refine List.mem_filterMap.mpr ⟨p, hp, Placed.selector?_eq_some.mpr ⟨hop, ?_⟩⟩
    split at hargs
    · cases hargs
    · exact (List.cons.inj hargs).1
  · intro hs
    obtain ⟨p, hp, hsel⟩ := List.mem_filterMap.mp hs
    obtain ⟨hop, himm⟩ := Placed.selector?_eq_some.mp hsel
    refine ⟨findings.line p, List.mem_map.mpr ⟨p, hp, rfl⟩, ?_, ?_⟩
    · rw [Findings.line, p.instruction_line, hop, Instruction.push4]
    · rw [Findings.line, Placed.args_line_push4 hop, himm]
      rfl

namespace Interface

theorem exists_builtin : ∀ x ∈ erc20 ++ erc721, ∃ entry ∈ Builtin.table, x ∈ entry.2 := by
  decide +kernel

/-- Every function of a token is built in, under its own selector and under no other. -/
theorem builtin_once : ∀ x ∈ erc20 ++ erc721, ∃ entry ∈ Builtin.table, x ∈ entry.2 ∧
    Builtin.candidates? entry.1 = some entry.2 ∧ Selector.ofSignature x = entry.1 ∧
    ∀ other ∈ Builtin.table, x ∈ other.2 → other.1 = entry.1 := by
  intro x hx
  obtain ⟨entry, he, hmem⟩ := exists_builtin x hx
  have hs := Builtin.ofSignature_eq_key entry he x hmem
  refine ⟨entry, he, hmem, Builtin.candidates?_of_mem he, hs, ?_⟩
  intro other ho hother
  rw [← Builtin.ofSignature_eq_key other ho x hother, hs]

end Interface

namespace Session
variable {σ : Type} {resolver : Resolver σ}

theorem pushes_finding {code : Bytes} {session : Session σ} {s : Selector} :
    (session.finding resolver code).Pushes s ↔
      s ∈ (session.gather resolver
        ((Sweep.scan code).placed.filterMap Placed.selector?) []).1.map Prod.fst := by
  rw [mem_keys_gather]
  constructor
  · exact fun h => Or.inr (Findings.pushes_disassembly.mp h)
  · rintro (h | h)
    · cases h
    · exact Findings.pushes_disassembly.mpr h

theorem answer_of_mem {sels : List Selector} {session : Session σ}
    {entry : Selector × List String} (h : entry ∈ (session.gather resolver sels []).1) :
    (session.gather resolver sels []).2.cache.known? entry.1 = some entry.2 :=
  gather_answeredBy (fun _ hn => absurd hn List.not_mem_nil) entry h

/-- A pushed selector that is built in brings all its candidates, whatever a resolver answers. -/
theorem mem_signatures_of_builtin {code : Bytes} {session : Session σ} {s : Selector}
    {found : List String} (hb : Builtin.candidates? s = some found)
    (hp : (session.finding resolver code).Pushes s) {x : String} (hx : x ∈ found) :
    x ∈ (session.finding resolver code).signatures := by
  obtain ⟨entry, he, rfl⟩ := List.mem_map.mp (pushes_finding.mp hp)
  have hanswer := answer_of_mem he
  rw [Cache.known?_of_builtin hb] at hanswer
  obtain rfl := Option.some.inj hanswer
  exact Findings.mem_signatures.mpr ⟨entry, he, hx⟩

/-- A candidate of a selector that was met is built in under it, or the resolver gives it. -/
theorem source_of_mem_gather {sels : List Selector} {session : Session σ}
    (hc : session.cache.FilledBy resolver) {entry : Selector × List String}
    (he : entry ∈ (session.gather resolver sels []).1) {x : String} (hx : x ∈ entry.2) :
    (∃ found, (entry.1, found) ∈ Builtin.table ∧ x ∈ found) ∨
      ∃ memory, x ∈ (resolver entry.1 memory).candidates := by
  have hanswer := answer_of_mem he
  cases hb : Builtin.candidates? entry.1 with
  | some found =>
    rw [Cache.known?_of_builtin hb] at hanswer
    obtain rfl := Option.some.inj hanswer
    exact Or.inl ⟨entry.2, mem_of_lookup hb, hx⟩
  | none =>
    rw [Cache.known?_of_not_builtin hb] at hanswer
    obtain ⟨memory, hm⟩ := filledBy_gather hc entry.1 entry.2 (mem_of_lookup hanswer)
    exact Or.inr ⟨memory, hm ▸ hx⟩

/-- A signature that was found is built in under a selector that the code pushes, or the resolver
gives it for such a selector. -/
theorem source_of_mem_signatures {code : Bytes} {session : Session σ}
    (hc : session.cache.FilledBy resolver) {x : String}
    (hx : x ∈ (session.finding resolver code).signatures) :
    ∃ s, (session.finding resolver code).Pushes s ∧
      ((∃ found, (s, found) ∈ Builtin.table ∧ x ∈ found) ∨
        ∃ memory, x ∈ (resolver s memory).candidates) := by
  obtain ⟨entry, he, hx⟩ := Findings.mem_signatures.mp hx
  exact ⟨entry.1, pushes_finding.mpr (List.mem_map.mpr ⟨entry, he, rfl⟩),
    source_of_mem_gather hc he hx⟩

theorem implements_of_pushes {interface : List String}
    (hi : ∀ x ∈ interface, x ∈ Interface.erc20 ++ Interface.erc721) {code : Bytes}
    {session : Session σ}
    (hp : ∀ x ∈ interface, (session.finding resolver code).Pushes (Selector.ofSignature x)) :
    (session.finding resolver code).implements interface = true := by
  apply List.all_eq_true.mpr
  intro x hx
  obtain ⟨entry, _, hmem, hb, hs, _⟩ := Interface.builtin_once x (hi x hx)
  exact List.contains_iff_mem.mpr (mem_signatures_of_builtin hb (hs ▸ hp x hx) hmem)

/-- If a code is taken for a token, it pushes the selectors of all functions of that token, unless
the resolver passed a signature off as that of another selector. -/
theorem pushes_of_implements {interface : List String}
    (hi : ∀ x ∈ interface, x ∈ Interface.erc20 ++ Interface.erc721) {code : Bytes}
    {session : Session σ} (honest : resolver.Honest) (hc : session.cache.FilledBy resolver)
    (h : (session.finding resolver code).implements interface = true) :
    ∀ x ∈ interface, (session.finding resolver code).Pushes (Selector.ofSignature x) := by
  intro x hx
  have hs := List.contains_iff_mem.mp (List.all_eq_true.mp h x hx)
  obtain ⟨s, hp, hsource⟩ := source_of_mem_signatures hc hs
  rcases hsource with ⟨found, ht, hf⟩ | ⟨memory, hm⟩
  · obtain ⟨entry, _, _, _, hsel, honce⟩ := Interface.builtin_once x (hi x hx)
    rw [hsel, ← honce (s, found) ht hf]
    exact hp
  · rw [honest hm]
    exact hp

/-- A code is taken for a token if its lines push the selectors of all functions of that token. If
the resolver is honest, then only if. -/
theorem disassemble_detects (resolver : Resolver σ) (code : Bytes) (session : Session σ) :
    ∃ d, ((session.disassemble resolver code).1 = .ok d ∨
        ∃ cut, (session.disassemble resolver code).1 = .error (.truncated cut d)) ∧
      ∀ interface ∈ [Interface.erc20, Interface.erc721],
        ((∀ x ∈ interface, d.Pushes (Selector.ofSignature x)) → d.implements interface = true) ∧
        (resolver.Honest → session.cache.FilledBy resolver →
          (d.implements interface = true ↔
            ∀ x ∈ interface, d.Pushes (Selector.ofSignature x))) := by
  refine ⟨session.finding resolver code, ?_, ?_⟩
  · cases hcut : (Sweep.scan code).cut with
    | none => exact Or.inl (disassemble_whole hcut resolver session)
    | some cut => exact Or.inr ⟨cut, disassemble_broken hcut resolver session⟩
  · intro interface hm
    have hi : ∀ x ∈ interface, x ∈ Interface.erc20 ++ Interface.erc721 := by
      intro x hx
      simp only [List.mem_cons, List.not_mem_nil, or_false] at hm
      rcases hm with rfl | rfl
      · exact List.mem_append_left _ hx
      · exact List.mem_append_right _ hx
    refine ⟨implements_of_pushes hi, ?_⟩
    intro honest hc
    exact ⟨pushes_of_implements hi honest hc, implements_of_pushes hi⟩

/-- Code that pushes the selectors of a fungible token and breaks off within one more push. -/
def brokenToken : Bytes :=
  (Interface.erc20.flatMap fun x => 0x63 :: (Selector.ofSignature x).toBytes) ++ [0x63, 0x70]

theorem pushed_brokenToken :
    (Sweep.scan brokenToken).cut.isSome = true ∧
      (∀ x ∈ Interface.erc20, Selector.ofSignature x ∈
        (Sweep.scan brokenToken).placed.filterMap Placed.selector?) ∧
      Selector.ofSignature "ownerOf(uint256)" ∉
        (Sweep.scan brokenToken).placed.filterMap Placed.selector? := by
  rw [brokenToken, Selector.ofSignature_eq_onNumbers]
  decide +kernel

theorem disassemble_detects_brokenToken :
    Resolver.offline.Honest ∧ Cache.FilledBy {} Resolver.offline ∧
      ∃ cut d, (disassemble Resolver.offline brokenToken { memory := () }).1 =
          .error (.truncated cut d) ∧
        d.implements Interface.erc20 = true ∧ d.implements Interface.erc721 = false := by
  obtain ⟨hsome, hpushed, hother⟩ := pushed_brokenToken
  obtain ⟨cut, hcut⟩ := Option.isSome_iff_exists.mp hsome
  have hbroken := disassemble_broken hcut Resolver.offline { memory := () }
  obtain ⟨d, hd, hall⟩ := disassemble_detects Resolver.offline brokenToken { memory := () }
  have hfinding : finding Resolver.offline brokenToken { memory := () } = d := by
    rcases hd with hd | ⟨_, hd⟩
    · rw [hbroken] at hd
      cases hd
    · rw [hbroken] at hd
      exact (DisassemblyError.truncated.inj (Except.error.inj hd)).2
  refine ⟨.offline, filledBy_start, cut, d, by rw [hbroken, hfinding], ?_, ?_⟩
  · apply (hall Interface.erc20 (by simp)).1
    intro x hx
    rw [← hfinding]
    exact Findings.pushes_disassembly.mpr (hpushed x hx)
  · apply Bool.eq_false_iff.mpr
    intro himplements
    have honly := ((hall Interface.erc721 (by simp)).2 .offline filledBy_start).mp himplements
    have howner := honly "ownerOf(uint256)" (by decide)
    rw [← hfinding] at howner
    exact hother (Findings.pushes_disassembly.mp howner)

end Session
end EvmInspect
