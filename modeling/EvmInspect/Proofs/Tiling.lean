import EvmInspect.Sweep.Boundary
import Mathlib.Logic.ExistsUnique

namespace EvmInspect

theorem Instruction.opcode_ofOpcode (opcode : UInt8) : (ofOpcode opcode).opcode = opcode := by
  unfold ofOpcode
  split
  · rfl
  · split <;> rfl

structure Placed.HeldBy (code : Bytes) (p : Placed) : Prop where
  opcode : ∃ opcode, code[p.pc]? = some opcode ∧ p.instruction = Instruction.ofOpcode opcode
  immediate : p.immediate = (code.drop (p.pc + 1)).take p.instruction.immediateLength
  length : p.immediate.length = p.instruction.immediateLength

theorem Placed.HeldBy.fits {code : Bytes} {p : Placed} (h : p.HeldBy code) :
    p.pc + p.instruction.size ≤ code.length := by
  obtain ⟨opcode, hop, _⟩ := h.opcode
  have hlt := (List.getElem?_eq_some_iff.mp hop).1
  have hlen := congrArg List.length h.immediate
  rw [h.length, List.length_take, List.length_drop] at hlen
  unfold Instruction.size
  omega

structure Cut.BrokenIn (code : Bytes) (cut : Cut) : Prop where
  opcode : ∃ opcode, code[cut.pc]? = some opcode ∧ cut.instruction = Instruction.ofOpcode opcode
  length : cut.pc + 1 + cut.available = code.length
  short : cut.available < cut.instruction.immediateLength

/-- Instructions of the code that begin at one offset and end at another, each where the one before
it ends. -/
inductive Tiles (code : Bytes) : Nat → List Placed → Nat → Prop where
  | done (pc : Nat) : Tiles code pc [] pc
  | next {p : Placed} {placed : List Placed} {stop : Nat} (held : p.HeldBy code)
      (rest : Tiles code (p.pc + p.instruction.size) placed stop) :
      Tiles code p.pc (p :: placed) stop

theorem Tiles.held {code : Bytes} {pc stop : Nat} {placed : List Placed}
    (h : Tiles code pc placed stop) : ∀ p ∈ placed, p.HeldBy code := by
  induction h with
  | done pc => simp
  | next held rest ih =>
    intro q hq
    rcases List.mem_cons.mp hq with rfl | hq
    · exact held
    · exact ih q hq

/-- No instruction reaches out of the range that is tiled. -/
theorem Tiles.bounds {code : Bytes} {pc stop : Nat} {placed : List Placed}
    (h : Tiles code pc placed stop) :
    pc ≤ stop ∧ ∀ p ∈ placed, pc ≤ p.pc ∧ p.pc + p.instruction.size ≤ stop := by
  induction h with
  | done pc => simp
  | next held rest ih =>
    obtain ⟨hle, hall⟩ := ih
    refine ⟨by omega, ?_⟩
    intro q hq
    rcases List.mem_cons.mp hq with rfl | hq
    · exact ⟨Nat.le_refl _, hle⟩
    · have := hall q hq
      omega

theorem Tiles.head {code : Bytes} {pc stop : Nat} {placed : List Placed}
    (h : Tiles code pc placed stop) {p : Placed} (hp : placed.head? = some p) : p.pc = pc := by
  cases h with
  | done => simp at hp
  | next held rest =>
    obtain rfl := Option.some.inj hp
    rfl

theorem Tiles.adjacent {code : Bytes} {pc stop : Nat} {placed : List Placed}
    (h : Tiles code pc placed stop) {i : Nat} {p q : Placed} (hp : placed[i]? = some p)
    (hq : placed[i + 1]? = some q) : q.pc = p.pc + p.instruction.size := by
  induction h generalizing i with
  | done => simp at hp
  | next held rest ih =>
    cases i with
    | zero =>
      obtain rfl := Option.some.inj hp
      rw [List.getElem?_cons_succ, ← List.head?_eq_getElem?] at hq
      exact rest.head hq
    | succ i =>
      rw [List.getElem?_cons_succ] at hp hq
      exact ih hp hq

theorem Tiles.last {code : Bytes} {pc stop : Nat} {placed : List Placed}
    (h : Tiles code pc placed stop) :
    (placed.getLast?.elim pc fun p => p.pc + p.instruction.size) = stop := by
  induction h with
  | done => rfl
  | next held rest ih =>
    rename_i p placed stop
    rw [List.getLast?_cons]
    cases hl : placed.getLast? with
    | none => simpa [hl] using ih
    | some q => simpa [hl] using ih

/-- Every byte of the range belongs to one instruction, and to no other one. -/
theorem Tiles.once {code : Bytes} {pc stop : Nat} {placed : List Placed}
    (h : Tiles code pc placed stop) {x : Nat} (hl : pc ≤ x) (hu : x < stop) :
    ∃! i : Nat, ∃ p : Placed, placed[i]? = some p ∧ p.pc ≤ x ∧ x < p.pc + p.instruction.size := by
  induction h with
  | done => omega
  | next held rest ih =>
    rename_i p placed stop
    by_cases hx : x < p.pc + p.instruction.size
    · refine ⟨0, ⟨p, rfl, hl, hx⟩, ?_⟩
      rintro i ⟨q, hq, hqx, _⟩
      cases i with
      | zero => rfl
      | succ i =>
        rw [List.getElem?_cons_succ] at hq
        have := (rest.bounds.2 q (List.mem_of_getElem? hq)).1
        omega
    · obtain ⟨i, ⟨q, hq, hqx⟩, hone⟩ := ih (by omega) hu
      refine ⟨i + 1, ⟨q, hq, hqx⟩, ?_⟩
      rintro j ⟨r, hr, hrx⟩
      cases j with
      | zero =>
        obtain rfl := Option.some.inj hr
        omega
      | succ j => exact congrArg Nat.succ (hone j ⟨r, hr, hrx⟩)

namespace Step

theorem getElem?_of_drop {code rest : Bytes} {pc : Nat} {opcode : UInt8}
    (h : code.drop pc = opcode :: rest) : code[pc]? = some opcode := by
  rw [← List.head?_drop, h]
  rfl

theorem held_of_read {code : Bytes} {pc : Nat} {p : Placed}
    (h : read pc (code.drop pc) = some (.whole p)) : p.HeldBy code ∧ p.pc = pc := by
  obtain ⟨opcode, rest, hb, hi, hpc, himm, hlen⟩ := read_whole h
  have hop := getElem?_of_drop hb
  have hrest : code.drop (pc + 1) = rest := by
    rw [← List.drop_drop, hb, List.drop_one]
    rfl
  subst hpc
  exact ⟨⟨⟨opcode, hop, hi⟩, by rw [himm, hrest], hlen⟩, rfl⟩

theorem broken_of_read {code : Bytes} {pc : Nat} {cut : Cut}
    (h : read pc (code.drop pc) = some (.truncated cut)) : cut.BrokenIn code ∧ cut.pc = pc := by
  obtain ⟨opcode, rest, hb, hi, hpc, ha, hlt⟩ := read_truncated h
  have hop := getElem?_of_drop hb
  have hlen := congrArg List.length hb
  rw [List.length_drop, List.length_cons] at hlen
  subst hpc
  exact ⟨⟨⟨opcode, hop, hi⟩, by omega, by omega⟩, rfl⟩

end Step

namespace Sweep

/-- A sweep ends with the code, or with an instruction that the code cuts off. -/
inductive EndsAt (code : Bytes) (sweep : Sweep) (stop : Nat) : Prop where
  | whole (cut : sweep.cut = none) (stop_eq : stop = code.length)
  | broken (cut : Cut) (found : sweep.cut = some cut) (stop_eq : stop = cut.pc)
      (broken : cut.BrokenIn code)

theorem tiles_scanFrom {code : Bytes} {pc : Nat} (h : pc ≤ code.length) :
    ∃ stop, Tiles code pc (scanFrom pc (code.drop pc)).placed stop ∧
      (scanFrom pc (code.drop pc)).EndsAt code stop := by
  match hb : code.drop pc with
  | [] =>
    have hlen := congrArg List.length hb
    rw [List.length_drop, List.length_nil] at hlen
    rw [scanFrom]
    exact ⟨pc, .done pc, .whole rfl (by omega)⟩
  | opcode :: rest =>
    rw [scanFrom]
    cases hr : Step.read pc (opcode :: rest) with
    | none =>
      rw [← hb] at hr
      have := Step.decode_eq_none_iff.mp hr
      have hlen := congrArg List.length hb
      rw [List.length_drop, List.length_cons] at hlen
      omega
    | some step =>
      cases step with
      | truncated cut =>
        rw [← hb] at hr
        obtain ⟨hbroken, hpc⟩ := Step.broken_of_read hr
        exact ⟨pc, .done pc, .broken cut rfl hpc.symm hbroken⟩
      | whole p =>
        rw [← hb] at hr
        obtain ⟨held, hpc⟩ := Step.held_of_read hr
        have hrest : code.drop (pc + p.instruction.size) =
            rest.drop p.instruction.immediateLength := by
          rw [Instruction.size, ← List.drop_drop, ← List.drop_drop, hb, List.drop_one]
          rfl
        have hfits := held.fits
        rw [hpc] at hfits
        -- the sweep goes on behind the immediate, which does not reach past the end
        obtain ⟨stop, tiles, ends⟩ := tiles_scanFrom hfits
        rw [hrest] at tiles ends
        refine ⟨stop, ?_, ?_⟩
        · subst hpc
          exact .next held tiles
        · cases ends with
          | whole hc hs => exact .whole hc hs
          | broken cut hf hs hbroken => exact .broken cut hf hs hbroken
termination_by code.length - pc
decreasing_by
  unfold Instruction.size at *
  omega

theorem tiles_scan (code : Bytes) :
    ∃ stop, Tiles code 0 (scan code).placed stop ∧ (scan code).EndsAt code stop :=
  tiles_scanFrom (Nat.zero_le _)

end Sweep
end EvmInspect
