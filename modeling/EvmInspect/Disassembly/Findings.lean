import EvmInspect.Disassembly
import EvmInspect.Selector

namespace EvmInspect

/-- The text at the front of a word: bytes of ASCII, at least one, before a zero. -/
def embeddedText? (word : Bytes) : Option Bytes :=
  let front := word.takeWhile (· != 0)
  if front.length < word.length ∧ front ≠ [] ∧ front.all (· < 0x80) then some front else none

namespace Placed

def selector? (p : Placed) : Option Selector :=
  if p.instruction.opcode = Instruction.push4 then Selector.ofBytes? p.immediate else none

def line (p : Placed) (candidates : List String) : Line :=
  let whole := if p.immediate.isEmpty then [] else [p.immediate]
  if p.instruction.opcode = Instruction.push4 then
    let note := if candidates.isEmpty then none else some (.signatures candidates)
    ⟨p.instruction, p.pc, whole, note⟩
  else if p.instruction.opcode = Instruction.push32 then
    match embeddedText? p.immediate with
    | some front =>
      let text := String.ofList (front.map fun b => Char.ofNat b.toNat)
      ⟨p.instruction, p.pc, [front], some (.text text)⟩
    | none => ⟨p.instruction, p.pc, whole, none⟩
  else ⟨p.instruction, p.pc, whole, none⟩

end Placed

/-- The candidates of the selectors met so far, each selector once, in the order they were met. -/
abbrev Findings := List (Selector × List String)

namespace Findings

def candidates (findings : Findings) : Option Selector → List String
  | some s => (findings.lookup s).getD []
  | none => []

def addNew (found new : List String) : List String :=
  new.foldl (fun found s => if s ∈ found then found else found ++ [s]) found

def signatures (findings : Findings) : List String :=
  findings.foldl (fun found entry => addNew found entry.2) []

def line (findings : Findings) (p : Placed) : Line :=
  p.line (findings.candidates p.selector?)

def disassembly (findings : Findings) (placed : List Placed) (codeLength : Nat) : Disassembly :=
  ⟨placed.map findings.line, codeLength, findings.signatures⟩

end Findings

end EvmInspect
