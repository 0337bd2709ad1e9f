import EvmInspect.Disassembly.Findings
import EvmInspect.Selector.Session
import EvmInspect.Text.Blank
import EvmInspect.Text.Cut

namespace EvmInspect
namespace Session
variable {σ : Type}

/-- Resolves selectors in order, and each of them only when it is met first. -/
def gather (resolver : Resolver σ) :
    List Selector → Findings → Session σ → Findings × Session σ
  | [], findings, session => (findings, session)
  | s :: rest, findings, session =>
    if (findings.lookup s).isSome then gather resolver rest findings session
    else
      let (found, session) := session.resolve resolver s
      gather resolver rest (findings ++ [(s, found)]) session

/-- Disassembles a code. When the code ends within an instruction, the result so far goes into the
error. -/
def disassemble (resolver : Resolver σ) (code : Bytes) (session : Session σ) :
    Except DisassemblyError Disassembly × Session σ :=
  let sweep := Sweep.scan code
  let (findings, session) := session.gather resolver (sweep.placed.filterMap Placed.selector?) []
  let result := findings.disassembly sweep.placed code.length
  match sweep.cut with
  | some cut =>
    (.error (.truncated cut result),
      session.record (.truncated cut.instruction.mnemonic cut.pc result.lines.length))
  | none =>
    (.ok result,
      session.record (.disassembled code.length result.lines.length result.signatures.length))

/-- The digits of a code given as text: blanks around it and one mark of hex do not count. -/
def codeDigits (text : List Char) : List Char :=
  let text := Text.trim text
  match Text.dropStart? ['0', 'x'] text with
  | some digits => digits
  | none => (Text.dropStart? ['0', 'X'] text).getD text

def disassembleText (resolver : Resolver σ) (text : String) (session : Session σ) :
    Except DisassemblyError Disassembly × Session σ :=
  match Hex.decodeText (codeDigits text.toList) with
  | .ok code => session.disassemble resolver code
  | .error fault => (.error (.invalidEncoding fault), session)

def disassembleAll (resolver : Resolver σ) :
    List Bytes → Session σ → List (Except DisassemblyError Disassembly) × Session σ
  | [], session => ([], session)
  | code :: codes, session =>
    let (first, session) := session.disassemble resolver code
    let (others, session) := disassembleAll resolver codes session
    (first :: others, session)

end Session
end EvmInspect
