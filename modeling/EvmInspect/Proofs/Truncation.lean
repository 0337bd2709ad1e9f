import EvmInspect.Proofs.Concatenation
import EvmInspect.Proofs.Demand

namespace EvmInspect

namespace Instruction

def pushOf (n : Nat) : UInt8 :=
  UInt8.ofNat (0x5f + n)

theorem ofOpcode_pushOf : ∀ n ∈ List.range' 1 32,
    (ofOpcode (pushOf n)).mnemonic = "PUSH" ++ toString n ∧
      (ofOpcode (pushOf n)).immediateLength = n := by
  decide +kernel

/-- Only the pushes have an immediate. -/
theorem immediateLength_ofOpcode (opcode : UInt8) :
    (ofOpcode opcode).immediateLength =
      if push1 ≤ opcode ∧ opcode ≤ push32 then opcode.toNat - 0x5f else 0 := by
  unfold ofOpcode families
  by_cases hpush : push1 ≤ opcode ∧ opcode ≤ push32
  · have hlow : 0x60 ≤ opcode.toNat := UInt8.le_iff_toNat_le.mp hpush.1
    have hfirst : push1.toNat = 0x60 := rfl
    rw [List.find?_cons_of_pos (by simpa using hpush), if_pos hpush]
    simp only [Family.number, if_true]
    omega
  · rw [List.find?_cons_of_neg (by simpa using hpush), if_neg hpush]
    cases hfamily : List.find? _ _ with
    | none =>
      dsimp only
      split <;> rfl
    | some family =>
      -- none of the other families pushes
      have hmem := List.mem_of_find?_eq_some hfamily
      simp only [List.mem_cons, List.not_mem_nil, or_false] at hmem
      rcases hmem with rfl | rfl | rfl <;> rfl

theorem eq_pushOf {opcode : UInt8} {n : Nat} (h : (ofOpcode opcode).immediateLength = n)
    (pos : 0 < n) : opcode = pushOf n ∧ n ≤ 32 := by
  rw [immediateLength_ofOpcode] at h
  split at h
  · rename_i hpush
    have hlow : 0x60 ≤ opcode.toNat := UInt8.le_iff_toNat_le.mp hpush.1
    have hhigh : opcode.toNat ≤ 0x7f := UInt8.le_iff_toNat_le.mp hpush.2
    refine ⟨?_, by omega⟩
    rw [pushOf, show 0x5f + n = opcode.toNat by omega, UInt8.ofNat_toNat]
  · omega

end Instruction

/-- The sweep over the code comes to a push of `n` bytes, of which fewer are left. -/
structure RunsShort (code : Bytes) (pc n : Nat) : Prop where
  reached : Boundary code pc
  width : 1 ≤ n ∧ n ≤ 32
  push : code[pc]? = some (Instruction.pushOf n)
  short : code.length - pc - 1 < n

theorem RunsShort.instruction {code : Bytes} {pc n : Nat} (h : RunsShort code pc n) :
    (Instruction.ofOpcode (Instruction.pushOf n)).mnemonic = "PUSH" ++ toString n ∧
      (Instruction.ofOpcode (Instruction.pushOf n)).immediateLength = n := by
  apply Instruction.ofOpcode_pushOf
  have hwidth := h.width
  rw [List.mem_range'_1]
  omega

theorem RunsShort.lt_length {code : Bytes} {pc n : Nat} (h : RunsShort code pc n) :
    pc < code.length :=
  (List.getElem?_eq_some_iff.mp h.push).1

/-- What the code cuts off is a push that runs short. -/
theorem Cut.BrokenIn.runsShort {code : Bytes} {cut : Cut} (h : cut.BrokenIn code)
    (reached : Boundary code cut.pc) : ∃ n, RunsShort code cut.pc n := by
  obtain ⟨opcode, hop, hi⟩ := h.opcode
  have hshort := h.short
  have hlength := h.length
  obtain ⟨rfl, hwidth⟩ := Instruction.eq_pushOf (congrArg _ hi).symm (by omega)
  exact ⟨cut.instruction.immediateLength, reached, by omega, hop, by omega⟩

/-- An instruction stands where the range begins, unless it is empty. -/
theorem Tiles.begins {code : Bytes} {pc stop : Nat} {placed : List Placed}
    (h : Tiles code pc placed stop) : (∃ p ∈ placed, p.pc = pc) ∨ pc = stop := by
  cases h with
  | done => exact Or.inr rfl
  | next held rest => exact Or.inl ⟨_, List.mem_cons_self, rfl⟩

/-- Behind an instruction stands the next one, or nothing more is tiled. -/
theorem Tiles.after {code : Bytes} {pc stop : Nat} {placed : List Placed}
    (h : Tiles code pc placed stop) {p : Placed} (hp : p ∈ placed) :
    (∃ q ∈ placed, q.pc = p.pc + p.instruction.size) ∨ p.pc + p.instruction.size = stop := by
  induction h with
  | done => cases hp
  | @next first placed stop held rest ih =>
    rcases List.mem_cons.mp hp with rfl | hp
    · rcases rest.begins with ⟨q, hq, hpc⟩ | hstop
      · exact Or.inl ⟨q, List.mem_cons_of_mem _ hq, hpc⟩
      · exact Or.inr hstop
    · rcases ih hp with ⟨q, hq, hpc⟩ | hstop
      · exact Or.inl ⟨q, List.mem_cons_of_mem _ hq, hpc⟩
      · exact Or.inr hstop

/-- At no boundary but the last one nothing stands. -/
theorem Boundary.tiled {code : Bytes} {stop : Nat} {placed : List Placed}
    (tiles : Tiles code 0 placed stop)
    (last : ∀ opcode, code[stop]? = some opcode →
      code.length < stop + (Instruction.ofOpcode opcode).size) {pc : Nat} (h : Boundary code pc) :
    (∃ p ∈ placed, p.pc = pc) ∨ pc = stop := by
  induction h with
  | start => exact tiles.begins
  | @next pc opcode at_pc found fits ih =>
    rcases ih with ⟨p, hp, rfl⟩ | rfl
    · obtain ⟨held, hop, hi⟩ := (tiles.held p hp).opcode
      obtain rfl := Option.some.inj (hop.symm.trans found)
      rw [← hi]
      rcases tiles.after hp with ⟨q, hq, hpc⟩ | hstop
      · exact Or.inl ⟨q, hq, hpc⟩
      · exact Or.inr hstop
    · exact absurd fits (by have := last opcode found; omega)

/-- An instruction in front of an offset stays when the code is cut there. -/
theorem Placed.HeldBy.take {code : Bytes} {p : Placed} (h : p.HeldBy code) {stop : Nat}
    (fits : p.pc + p.instruction.size ≤ stop) : p.HeldBy (code.take stop) := by
  unfold Instruction.size at fits
  obtain ⟨opcode, hop, hi⟩ := h.opcode
  constructor
  case opcode => exact ⟨opcode, by rw [List.getElem?_take_of_lt (by omega), hop], hi⟩
  case immediate =>
    rw [List.drop_take, List.take_take, Nat.min_eq_left (by omega), h.immediate]
  case length => exact h.length

theorem Tiles.take {code : Bytes} {pc stop : Nat} {placed : List Placed}
    (h : Tiles code pc placed stop) : Tiles (code.take stop) pc placed stop := by
  induction h with
  | done pc => exact .done pc
  | next held rest ih => exact .next (held.take rest.bounds.1) ih

theorem Placed.HeldBy.decode {code : Bytes} {p : Placed} (h : p.HeldBy code) :
    Step.decode code p.pc = some (.whole p) := by
  obtain ⟨opcode, hop, hi⟩ := h.opcode
  obtain ⟨hlt, hget⟩ := List.getElem?_eq_some_iff.mp hop
  have himm := h.immediate
  have hlen := h.length
  rw [Step.decode, List.drop_eq_getElem_cons hlt, hget, Step.read, ← hi, ← himm,
    if_neg (by omega)]

/-- Instructions that tile the whole code are what its sweep finds. -/
theorem Tiles.scanFrom_eq {code : Bytes} {pc stop : Nat} {placed : List Placed}
    (h : Tiles code pc placed stop) (whole : stop = code.length) :
    Sweep.scanFrom pc (code.drop pc) = ⟨placed, none⟩ := by
  induction h with
  | done pc => rw [List.drop_eq_nil_of_le (by omega), Sweep.scanFrom_nil]
  | next held rest ih => rw [Sweep.scanFrom_decode_whole held.decode, ih whole]

namespace Sweep

/-- Cut where its last instruction is broken, the code has all the others and no broken one. -/
theorem scan_take {code : Bytes} {cut : Cut} (h : (scan code).cut = some cut) :
    scan (code.take cut.pc) = ⟨(scan code).placed, none⟩ := by
  obtain ⟨stop, tiles, ends⟩ := tiles_scan code
  cases ends with
  | whole hcut _ =>
    rw [h] at hcut
    cases hcut
  | broken other hcut hstop hbroken =>
    obtain rfl := Option.some.inj (h.symm.trans hcut)
    subst hstop
    have hlength := hbroken.length
    exact tiles.take.scanFrom_eq (by rw [List.length_take]; omega)

/-- Where a sweep ends no instruction fits. -/
theorem EndsAt.not_fits {code : Bytes} {sweep : Sweep} {stop : Nat} (h : sweep.EndsAt code stop)
    {opcode : UInt8} (hop : code[stop]? = some opcode) :
    code.length < stop + (Instruction.ofOpcode opcode).size := by
  cases h with
  | whole _ hstop => simp [hstop] at hop
  | broken cut _ hstop hbroken =>
    obtain ⟨held, hheld, hi⟩ := hbroken.opcode
    have hlength := hbroken.length
    have hshort := hbroken.short
    rw [hstop, hheld] at hop
    obtain rfl := Option.some.inj hop
    rw [hstop, ← hi, Instruction.size]
    omega

/-- Where a push runs short the sweep breaks off. -/
theorem cut_of_runsShort {code : Bytes} {pc n : Nat} (h : RunsShort code pc n) :
    (scan code).cut =
      some ⟨Instruction.ofOpcode (Instruction.pushOf n), pc, code.length - pc - 1⟩ := by
  obtain ⟨stop, tiles, ends⟩ := tiles_scan code
  have hwidth := h.instruction.2
  have hshort := h.short
  have hlt := h.lt_length
  have hstop : pc = stop := by
    rcases h.reached.tiled tiles (fun _ => ends.not_fits) with ⟨p, hp, rfl⟩ | hstop
    · -- an instruction of the sweep fits into the code, and the push does not
      have held := tiles.held p hp
      have hfits := held.fits
      obtain ⟨opcode, hop, hi⟩ := held.opcode
      obtain rfl := Option.some.inj (h.push.symm.trans hop)
      rw [hi, Instruction.size] at hfits
      omega
    · exact hstop
  cases ends with
  | whole _ hwhole => omega
  | broken cut hcut hpc hbroken =>
    obtain ⟨opcode, hop, hi⟩ := hbroken.opcode
    have hlength := hbroken.length
    rw [← hpc, ← hstop, h.push] at hop
    obtain rfl := Option.some.inj hop
    rw [hcut, Option.some.injEq, Cut.mk.injEq]
    exact ⟨hi, by omega, by omega⟩

/-- Where the sweep breaks off a push runs short. -/
theorem runsShort_of_cut {code : Bytes} {cut : Cut} (h : (scan code).cut = some cut) :
    ∃ n, RunsShort code cut.pc n := by
  have reached : Boundary code cut.pc :=
    (boundary_of_scanFrom (List.nil_append code).symm .start).2 cut h
  obtain ⟨stop, _, ends⟩ := tiles_scan code
  cases ends with
  | whole hcut _ =>
    rw [h] at hcut
    cases hcut
  | broken other hcut _ hbroken =>
    obtain rfl := Option.some.inj (h.symm.trans hcut)
    exact hbroken.runsShort reached

end Sweep

namespace Session
variable {σ τ : Type} {resolver : Resolver σ} {other : Resolver τ}

theorem known?_of_pushed {code : Bytes} {s : Selector} (h : s ∈ pushedSelectors code)
    (resolver : Resolver σ) (session : Session σ) :
    ∃ found, (session.disassemble resolver code).2.cache.known? s = some found := by
  rw [pushedSelectors_eq] at h
  obtain ⟨entry, he, rfl⟩ := List.mem_map.mp (mem_keys_gather.mpr (Or.inr h))
  exact ⟨entry.2, cache_disassemble resolver code session ▸ answer_of_mem he⟩

/-- What is found in a code is the code's selectors with what the cache reports in the end. -/
theorem finding_eq_collect {answer : Selector → List String} {code : Bytes} {session : Session σ}
    (h : ∀ s ∈ pushedSelectors code,
      (session.disassemble resolver code).2.cache.known? s = some (answer s)) :
    session.finding resolver code =
      (Findings.collect answer [] (pushedSelectors code)).disassembly (Sweep.scan code).placed
        code.length := by
  rw [cache_disassemble] at h
  rw [pushedSelectors_eq] at h ⊢
  rw [← gather_eq_collect h]
  rfl

/-- Two caches that end up with the same answers for the selectors of a code find the same. -/
theorem finding_congr {code : Bytes} {session : Session σ} {again : Session τ}
    (same : ∀ s ∈ pushedSelectors code,
      (again.disassemble other code).2.cache.known? s =
        (session.disassemble resolver code).2.cache.known? s) :
    again.finding other code = session.finding resolver code := by
  let answer (s : Selector) : List String :=
    ((session.disassemble resolver code).2.cache.known? s).getD []
  have hanswer : ∀ s ∈ pushedSelectors code,
      (session.disassemble resolver code).2.cache.known? s = some (answer s) := by
    intro s hs
    obtain ⟨found, hfound⟩ := known?_of_pushed hs resolver session
    simp only [answer, hfound, Option.getD_some]
  rw [finding_eq_collect hanswer]
  apply finding_eq_collect
  intro s hs
  rw [same s hs, hanswer s hs]

/-- Up to the broken instruction the same is found as if the code ended there. -/
theorem finding_take {code : Bytes} {cut : Cut} (h : (Sweep.scan code).cut = some cut)
    (resolver : Resolver σ) (session : Session σ) :
    session.finding resolver (code.take cut.pc) =
      { session.finding resolver code with codeLength := (code.take cut.pc).length } := by
  rw [finding, finding, Sweep.scan_take h]
  rfl

/-- Disassembling fails in one way only, where the sweep comes to a push with fewer bytes than it
takes. What stands before the push is kept, as it is found when the code ends there. -/
theorem disassemble_truncates (resolver : Resolver σ) (code : Bytes) (session : Session σ) :
    (∀ error, (session.disassemble resolver code).1 = .error error →
      ∃ cut d n, error = .truncated cut d ∧ RunsShort code cut.pc n) ∧
    ∀ pc n, RunsShort code pc n →
      ∃ cut d, (session.disassemble resolver code).1 = .error (.truncated cut d) ∧
        cut.pc = pc ∧ cut.instruction.mnemonic = "PUSH" ++ toString n ∧
        cut.instruction.immediateLength = n ∧ cut.available = code.length - pc - 1 ∧
        cut.available < n ∧ d.codeLength = code.length ∧
        (session.disassemble resolver (code.take pc)).1 = .ok { d with codeLength := pc } ∧
        ∀ (τ : Type) (other : Resolver τ) (again : Session τ),
          (∀ s ∈ pushedSelectors (code.take pc),
            (again.disassemble other (code.take pc)).2.cache.known? s =
              (session.disassemble resolver code).2.cache.known? s) →
          (again.disassemble other (code.take pc)).1 = .ok { d with codeLength := pc } := by
  constructor
  · intro error he
    cases hcut : (Sweep.scan code).cut with
    | none =>
      rw [disassemble_whole hcut] at he
      cases he
    | some cut =>
      rw [disassemble_broken hcut] at he
      obtain ⟨n, hn⟩ := Sweep.runsShort_of_cut hcut
      exact ⟨cut, _, n, (Except.error.inj he).symm, hn⟩
  · intro pc n h
    have hcut := Sweep.cut_of_runsShort h
    have htake := Sweep.scan_take hcut
    have hlength : (code.take pc).length = pc := by
      rw [List.length_take]
      have := h.lt_length
      omega
    have hfinding := finding_take hcut resolver session
    rw [hlength] at hfinding
    have hwhole : (Sweep.scan (code.take pc)).cut = none := by rw [htake]
    refine ⟨_, _, disassemble_broken hcut resolver session, rfl, h.instruction.1,
      h.instruction.2, rfl, h.short, rfl, ?_, ?_⟩
    · rw [disassemble_whole hwhole, hfinding]
    · intro τ other again same
      rw [disassemble_whole hwhole, ← hfinding]
      apply congrArg Except.ok
      apply finding_congr
      intro s hs
      rw [same s hs, cache_disassemble, cache_disassemble, htake]

/-- A selector, and behind it one more of which a single byte is there: what is known of the first
one is kept, and nothing is made up about the second. -/
theorem disassemble_truncates_pushed :
    RunsShort (pushed ++ [0x63, 0xde]) 5 4 ∧
      ∃ cut d, (disassemble frobnicating (pushed ++ [0x63, 0xde]) { memory := () }).1 =
          .error (.truncated cut d) ∧
        cut.pc = 5 ∧ cut.instruction.mnemonic = "PUSH4" ∧ cut.available = 1 ∧
        (disassemble frobnicating pushed { memory := () }).1 = .ok { d with codeLength := 5 } ∧
        d.codeLength = 7 ∧ d.signatures = ["frobnicate(uint256)"] := by
  have reached : Boundary (pushed ++ [0x63, 0xde]) 5 :=
    @Boundary.next _ 0 0x63 .start (by decide) (by decide +kernel)
  have short : RunsShort (pushed ++ [0x63, 0xde]) 5 4 :=
    ⟨reached, by decide, by decide, by decide⟩
  obtain ⟨cut, d, hd, hpc, hmnemonic, _, havailable, _, hlength, hcut, _⟩ :=
    (disassemble_truncates frobnicating (pushed ++ [0x63, 0xde]) { memory := () }).2 5 4 short
  have hwhole : (Sweep.scan pushed).cut = none := by decide +kernel
  have hfound := disassemble_whole hwhole frobnicating { memory := () }
  refine ⟨short, cut, d, hd, hpc, hmnemonic, havailable, hcut, hlength, ?_⟩
  have hsame : finding frobnicating pushed { memory := () } = { d with codeLength := 5 } :=
    Except.ok.inj (hfound.symm.trans hcut)
  have hsignatures := congrArg Disassembly.signatures hsame
  rw [← hsignatures]
  decide +kernel

end Session
end EvmInspect
