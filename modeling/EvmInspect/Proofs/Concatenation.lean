import EvmInspect.Proofs.Steady

namespace EvmInspect

def Placed.moved (offset : Nat) (p : Placed) : Placed :=
  { p with pc := offset + p.pc }

def Cut.moved (offset : Nat) (cut : Cut) : Cut :=
  { cut with pc := offset + cut.pc }

def Line.moved (offset : Nat) (line : Line) : Line :=
  { line with pc := offset + line.pc }

/-- What is found in two pieces of code, put together: the lines of the second piece behind those
of the first and as far on as the first is long, and the signatures of both. -/
structure Disassembly.Joined (first second : Bytes) (d e whole : Disassembly) : Prop where
  lines : whole.lines = d.lines ++ e.lines.map (Line.moved first.length)
  signatures : ∀ x, x ∈ whole.signatures ↔ x ∈ d.signatures ∨ x ∈ e.signatures
  codeLength : whole.codeLength = first.length + second.length

@[simp]
theorem Placed.selector?_moved (offset : Nat) (p : Placed) :
    (p.moved offset).selector? = p.selector? :=
  rfl

theorem Placed.line_moved (offset : Nat) (p : Placed) (candidates : List String) :
    (p.moved offset).line candidates = (p.line candidates).moved offset := by
  unfold line moved Line.moved
  dsimp only
  split
  · rfl
  · split
    · cases embeddedText? p.immediate <;> rfl
    · rfl

namespace Step

def moved (offset : Nat) : Step → Step
  | .whole p => .whole (p.moved offset)
  | .truncated cut => .truncated (cut.moved offset)

/-- What a step finds does not depend on where it is taken. -/
theorem read_add (offset pc : Nat) (bytes : Bytes) :
    read (offset + pc) bytes = (read pc bytes).map (moved offset) := by
  cases bytes with
  | nil => rfl
  | cons opcode rest =>
    simp only [read]
    split <;> rfl

theorem read_ne_none (pc : Nat) (opcode : UInt8) (rest : Bytes) :
    read pc (opcode :: rest) ≠ none := by
  simp only [read]
  split <;> simp

/-- The immediate of a whole instruction is there. -/
theorem immediateLength_le_of_read {pc : Nat} {opcode : UInt8} {rest : Bytes} {p : Placed}
    (h : read pc (opcode :: rest) = some (.whole p)) :
    p.instruction.immediateLength ≤ rest.length := by
  obtain ⟨_, _, hb, _, _, himm, hlen⟩ := read_whole h
  obtain ⟨rfl, rfl⟩ := List.cons.inj hb
  rw [himm, List.length_take] at hlen
  omega

/-- A whole instruction stays what it is if more bytes follow. -/
theorem read_append {pc : Nat} {opcode : UInt8} {rest : Bytes} {p : Placed}
    (h : read pc (opcode :: rest) = some (.whole p)) (behind : Bytes) :
    read pc (opcode :: (rest ++ behind)) = some (.whole p) := by
  have hfits := immediateLength_le_of_read h
  obtain ⟨_, _, hb, hi, _⟩ := read_whole h
  obtain ⟨rfl, rfl⟩ := List.cons.inj hb
  rw [hi] at hfits
  rw [← h]
  simp only [read, List.take_append_of_le_length hfits, List.length_take, Nat.min_eq_left hfits,
    Nat.lt_irrefl, ↓reduceIte]

end Step

namespace Sweep

def moved (offset : Nat) (sweep : Sweep) : Sweep :=
  ⟨sweep.placed.map (Placed.moved offset), sweep.cut.map (Cut.moved offset)⟩

@[simp]
theorem scanFrom_nil (pc : Nat) : scanFrom pc [] = ⟨[], none⟩ := by
  rw [scanFrom]

theorem scanFrom_whole {pc : Nat} {opcode : UInt8} {rest : Bytes} {p : Placed}
    (h : Step.read pc (opcode :: rest) = some (.whole p)) :
    scanFrom pc (opcode :: rest) =
      ⟨p :: (scanFrom (pc + p.instruction.size) (rest.drop p.instruction.immediateLength)).placed,
        (scanFrom (pc + p.instruction.size) (rest.drop p.instruction.immediateLength)).cut⟩ := by
  rw [scanFrom, h]

theorem scanFrom_truncated {pc : Nat} {opcode : UInt8} {rest : Bytes} {cut : Cut}
    (h : Step.read pc (opcode :: rest) = some (.truncated cut)) :
    scanFrom pc (opcode :: rest) = ⟨[], some cut⟩ := by
  rw [scanFrom, h]

theorem scanFrom_decode_none {code : Bytes} {pc : Nat} (h : Step.decode code pc = none) :
    scanFrom pc (code.drop pc) = ⟨[], none⟩ := by
  rw [List.drop_eq_nil_of_le (Step.decode_eq_none_iff.mp h), scanFrom_nil]

theorem scanFrom_decode_truncated {code : Bytes} {pc : Nat} {cut : Cut}
    (h : Step.decode code pc = some (.truncated cut)) :
    scanFrom pc (code.drop pc) = ⟨[], some cut⟩ := by
  obtain ⟨opcode, rest, hb, _⟩ := Step.read_truncated h
  rw [Step.decode, hb] at h
  rw [hb, scanFrom_truncated h]

theorem scanFrom_decode_whole {code : Bytes} {pc : Nat} {p : Placed}
    (h : Step.decode code pc = some (.whole p)) :
    scanFrom pc (code.drop pc) =
      ⟨p :: (scanFrom (pc + p.instruction.size) (code.drop (pc + p.instruction.size))).placed,
        (scanFrom (pc + p.instruction.size) (code.drop (pc + p.instruction.size))).cut⟩ := by
  obtain ⟨opcode, rest, hb, _⟩ := Step.read_whole h
  have hrest : code.drop (pc + p.instruction.size) =
      rest.drop p.instruction.immediateLength := by
    rw [Instruction.size, ← List.drop_drop, ← List.drop_drop, hb, List.drop_one]
    rfl
  rw [Step.decode, hb] at h
  rw [hb, scanFrom_whole h, hrest]

theorem scanFrom_add (offset pc : Nat) (bytes : Bytes) :
    scanFrom (offset + pc) bytes = (scanFrom pc bytes).moved offset := by
  induction pc, bytes using scanFrom.induct with
  | case1 pc => simp [moved]
  | case2 pc opcode rest hr => exact absurd hr (Step.read_ne_none pc opcode rest)
  | case3 pc opcode rest cut hr =>
    have hmoved : Step.read (offset + pc) (opcode :: rest) =
        some (.truncated (cut.moved offset)) := by
      rw [Step.read_add, hr]
      rfl
    rw [scanFrom_truncated hr, scanFrom_truncated hmoved]
    rfl
  | case4 pc opcode rest p hr behind ih =>
    have hmoved : Step.read (offset + pc) (opcode :: rest) =
        some (.whole (p.moved offset)) := by
      rw [Step.read_add, hr]
      rfl
    rw [← Nat.add_assoc] at ih
    rw [scanFrom_whole hr, scanFrom_whole hmoved]
    dsimp only [Placed.moved]
    rw [ih]
    rfl

/-- A sweep that comes to the end of some bytes goes on with what follows them. -/
theorem scanFrom_append {pc : Nat} {bytes : Bytes} (h : (scanFrom pc bytes).cut = none)
    (behind : Bytes) :
    scanFrom pc (bytes ++ behind) =
      ⟨(scanFrom pc bytes).placed ++ (scanFrom (pc + bytes.length) behind).placed,
        (scanFrom (pc + bytes.length) behind).cut⟩ := by
  induction pc, bytes using scanFrom.induct with
  | case1 pc => simp
  | case2 pc opcode rest hr => exact absurd hr (Step.read_ne_none pc opcode rest)
  | case3 pc opcode rest cut hr =>
    rw [scanFrom_truncated hr] at h
    cases h
  | case4 pc opcode rest p hr after ih =>
    have hfits := Step.immediateLength_le_of_read hr
    have hlen : pc + p.instruction.size + (rest.drop p.instruction.immediateLength).length =
        pc + (opcode :: rest).length := by
      simp only [Instruction.size, List.length_drop, List.length_cons]
      omega
    rw [scanFrom_whole hr] at h ⊢
    have ih := ih h
    rw [hlen] at ih
    rw [List.cons_append, scanFrom_whole (Step.read_append hr behind),
      List.drop_append_of_le_length hfits, ih]
    rfl

/-- Code behind code that ends with an instruction is swept as if it stood alone. -/
theorem scan_append {code : Bytes} (h : (scan code).cut = none) (behind : Bytes) :
    scan (code ++ behind) =
      ⟨(scan code).placed ++ ((scan behind).moved code.length).placed,
        ((scan behind).moved code.length).cut⟩ := by
  have hbehind := scanFrom_add code.length 0 behind
  rw [Nat.add_zero] at hbehind
  rw [scan, scanFrom_append h, Nat.zero_add, hbehind]
  rfl

end Sweep

theorem Placed.settledLine_moved (answers : Selector → List String) (offset : Nat) (p : Placed) :
    (p.moved offset).settledLine answers = (p.settledLine answers).moved offset := by
  rw [settledLine, settledLine, Placed.line_moved, Placed.selector?_moved]

namespace Session
variable {σ : Type} {resolver : Resolver σ} {answers : Selector → List String}

theorem joined_finding {first second whole : Session σ} (steady : resolver.Steady answers)
    (hf : first.cache.FilledBy resolver) (hs : second.cache.FilledBy resolver)
    (hw : whole.cache.FilledBy resolver) {a b : Bytes} (h : (Sweep.scan a).cut = none) :
    Disassembly.Joined a b (first.finding resolver a) (second.finding resolver b)
      (whole.finding resolver (a ++ b)) := by
  have hplaced : (Sweep.scan (a ++ b)).placed =
      (Sweep.scan a).placed ++ (Sweep.scan b).placed.map (Placed.moved a.length) := by
    rw [Sweep.scan_append h]
    rfl
  constructor
  case lines =>
    rw [lines_finding hf steady, lines_finding hs steady, lines_finding hw steady, hplaced,
      List.map_append, List.map_map, List.map_map]
    congr 1
    apply List.map_congr_left
    intro p _
    exact Placed.settledLine_moved answers a.length p
  case signatures =>
    intro x
    rw [mem_signatures_finding hf steady, mem_signatures_finding hs steady,
      mem_signatures_finding hw steady, hplaced, List.filterMap_append, List.filterMap_map]
    simp only [List.mem_append, or_and_right, exists_or]
    rfl
  case codeLength => exact List.length_append

theorem scan_of_disassemble_ok {code : Bytes} {session : Session σ} {d : Disassembly}
    (h : (session.disassemble resolver code).1 = .ok d) :
    (Sweep.scan code).cut = none ∧ session.finding resolver code = d := by
  cases hc : (Sweep.scan code).cut with
  | none =>
    rw [disassemble_whole hc] at h
    exact ⟨rfl, Except.ok.inj h⟩
  | some cut =>
    rw [disassemble_broken hc] at h
    cases h

theorem scan_of_disassemble_truncated {code : Bytes} {session : Session σ} {cut : Cut}
    {d : Disassembly} (h : (session.disassemble resolver code).1 = .error (.truncated cut d)) :
    (Sweep.scan code).cut = some cut ∧ session.finding resolver code = d := by
  cases hc : (Sweep.scan code).cut with
  | none =>
    rw [disassemble_whole hc] at h
    cases h
  | some broken =>
    rw [disassemble_broken hc] at h
    obtain ⟨rfl, rfl⟩ := DisassemblyError.truncated.inj (Except.error.inj h)
    exact ⟨rfl, rfl⟩

/-- Code behind code that is disassembled to its end is disassembled as if it stood alone, with any
caches of one resolver that has one answer for each selector. -/
theorem disassemble_append {first second whole : Session σ} (steady : resolver.Steady answers)
    (hf : first.cache.FilledBy resolver) (hs : second.cache.FilledBy resolver)
    (hw : whole.cache.FilledBy resolver) {a b : Bytes} {d : Disassembly}
    (complete : (first.disassemble resolver a).1 = .ok d) :
    (∀ e, (second.disassemble resolver b).1 = .ok e →
      ∃ joined, (whole.disassemble resolver (a ++ b)).1 = .ok joined ∧
        Disassembly.Joined a b d e joined) ∧
    ∀ cut e, (second.disassemble resolver b).1 = .error (.truncated cut e) →
      ∃ joined, (whole.disassemble resolver (a ++ b)).1 =
          .error (.truncated (cut.moved a.length) joined) ∧
        Disassembly.Joined a b d e joined := by
  obtain ⟨ha, rfl⟩ := scan_of_disassemble_ok complete
  have hjoined := joined_finding steady hf hs hw (b := b) ha
  have hcut := congrArg Sweep.cut (Sweep.scan_append ha b)
  constructor
  · intro e he
    obtain ⟨hb, rfl⟩ := scan_of_disassemble_ok he
    simp only [Sweep.moved, hb, Option.map_none] at hcut
    exact ⟨_, disassemble_whole hcut resolver whole, hjoined⟩
  · intro cut e he
    obtain ⟨hb, rfl⟩ := scan_of_disassemble_truncated he
    simp only [Sweep.moved, hb, Option.map_some] at hcut
    exact ⟨_, disassemble_broken hcut resolver whole, hjoined⟩

def frobnicating : Resolver Unit :=
  fun _ memory => ⟨.ok ["frobnicate(uint256)"], [], memory⟩

def pushed : Bytes :=
  [0x63, 0xde, 0xad, 0xbe, 0xef]

/-- The same push twice: both lines are annotated, and what is broken stands further on. -/
theorem disassemble_append_pushed :
    (Sweep.scan pushed).cut = none ∧
      (Sweep.scan (pushed ++ [0x61, 0x01])).cut = some ⟨Instruction.ofOpcode 0x61, 5, 1⟩ ∧
      ∃ joined, (disassemble frobnicating (pushed ++ (pushed ++ [0x61, 0x01]))
          { memory := () }).1 = .error (.truncated ⟨Instruction.ofOpcode 0x61, 10, 1⟩ joined) ∧
        joined.lines.map Line.pc = [0, 5] ∧
        joined.lines.map Line.note =
          List.replicate 2 (some (.signatures ["frobnicate(uint256)"])) := by
  have hwhole : (Sweep.scan pushed).cut = none := by decide +kernel
  have hbroken : (Sweep.scan (pushed ++ [0x61, 0x01])).cut =
      some ⟨Instruction.ofOpcode 0x61, 5, 1⟩ := by decide +kernel
  have steady : frobnicating.Steady fun _ => ["frobnicate(uint256)"] := fun _ _ => rfl
  have filled : (Session.cache { memory := () }).FilledBy frobnicating := filledBy_start
  obtain ⟨joined, he, hj⟩ := (disassemble_append steady filled filled filled
    (disassemble_whole hwhole _ _)).2 _ _ (disassemble_broken hbroken _ _)
  refine ⟨hwhole, hbroken, joined, he, ?_, ?_⟩
  · rw [hj.lines]
    decide +kernel
  · rw [hj.lines]
    decide +kernel

end Session
end EvmInspect
