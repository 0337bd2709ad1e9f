import EvmInspect.Instruction

namespace EvmInspect

structure Placed where
  instruction : Instruction
  pc : Nat
  immediate : Bytes
deriving DecidableEq

/-- An instruction whose immediate runs past the end of the code. -/
structure Cut where
  instruction : Instruction
  pc : Nat
  /-- How many bytes of the immediate are there. -/
  available : Nat
deriving DecidableEq

inductive Step
  | whole (placed : Placed)
  | truncated (cut : Cut)
deriving DecidableEq

namespace Step

def read (pc : Nat) : Bytes → Option Step
  | [] => none
  | opcode :: rest =>
    let instruction := Instruction.ofOpcode opcode
    let immediate := rest.take instruction.immediateLength
    if immediate.length < instruction.immediateLength then
      some (.truncated ⟨instruction, pc, rest.length⟩)
    else some (.whole ⟨instruction, pc, immediate⟩)

def decode (code : Bytes) (pc : Nat) : Option Step :=
  read pc (code.drop pc)

end Step

/-- What a sweep finds: the whole instructions in order, and the one the code cuts off. -/
structure Sweep where
  placed : List Placed
  cut : Option Cut
deriving DecidableEq

namespace Sweep

def scanFrom (pc : Nat) : Bytes → Sweep
  | [] => ⟨[], none⟩
  | opcode :: rest =>
    match Step.read pc (opcode :: rest) with
    | none => ⟨[], none⟩
    | some (.truncated cut) => ⟨[], some cut⟩
    | some (.whole found) =>
      let behind := rest.drop found.instruction.immediateLength
      let later := scanFrom (pc + found.instruction.size) behind
      ⟨found :: later.placed, later.cut⟩
termination_by bytes => bytes.length
decreasing_by simp only [List.length_drop, List.length_cons]; omega

def scan (code : Bytes) : Sweep :=
  scanFrom 0 code

end Sweep
end EvmInspect
