import EvmInspect.Sweep
import EvmInspect.Text.Quoted

namespace EvmInspect

inductive Annotation
  | signatures (candidates : List String)
  | text (recovered : String)
deriving DecidableEq

/-- Signatures stand as they are, text stands quoted. -/
def Annotation.display : Annotation → String
  | .signatures candidates => ", ".intercalate candidates
  | .text recovered => Text.quote recovered

structure Line where
  instruction : Instruction
  pc : Nat
  args : List Bytes
  note : Option Annotation
deriving DecidableEq

namespace Line

def argsText (line : Line) : String :=
  ", ".intercalate (line.args.map Hex.text)

def display (line : Line) : String :=
  let args := if line.args.isEmpty then "" else " " ++ line.argsText
  let note := match line.note with
    | some note => " " ++ note.display
    | none => ""
  line.instruction.display ++ args ++ " ;" ++ note ++ " pc=" ++ toString line.pc

end Line

structure Disassembly where
  lines : List Line
  codeLength : Nat
  /-- Every signature found, each once, in the order in which they were found. -/
  signatures : List String
deriving DecidableEq

namespace Disassembly

/-- The signatures by code points. -/
def sortedSignatures (d : Disassembly) : List String :=
  d.signatures.mergeSort fun x y => decide (x ≤ y)

/-- Whether every signature of an interface was found, exactly as it is spelled there. -/
def implements (d : Disassembly) (interface : List String) : Bool :=
  interface.all fun signature => d.signatures.contains signature

def listing (d : Disassembly) : String :=
  String.join (d.lines.map fun line => line.display ++ "\n")

end Disassembly

inductive DisassemblyError
  | invalidEncoding (fault : Hex.Fault)
  /-- The code ends within an instruction; what stands before that is kept. -/
  | truncated (cut : Cut) (kept : Disassembly)
deriving DecidableEq

namespace DisassemblyError

def message : DisassemblyError → String
  | .invalidEncoding fault => "Invalid bytecode encoding: " ++ fault.message
  | .truncated cut _ =>
    s!"Truncated instruction {cut.instruction.mnemonic} at pc {cut.pc}: expected " ++
      s!"{cut.instruction.immediateLength} argument bytes, found {cut.available}"

def kept? : DisassemblyError → Option Disassembly
  | .invalidEncoding _ => none
  | .truncated _ kept => some kept

end DisassemblyError
end EvmInspect
