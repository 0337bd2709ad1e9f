import EvmInspect.Disassembly.Run

namespace EvmInspect.Session
variable {σ : Type}

def directLines (resolver : Resolver σ) :
    List Placed → List String → Session σ → (List Line × List String) × Session σ
  | [], found, session => (([], found), session)
  | p :: placed, found, session =>
    match p.selector? with
    | none =>
      let ((lines, found), session) := directLines resolver placed found session
      ((p.line [] :: lines, found), session)
    | some s =>
      let (candidates, session) := session.resolve resolver s
      let ((lines, found), session) :=
        directLines resolver placed (Findings.addNew found candidates) session
      ((p.line candidates :: lines, found), session)

/-- Disassembles a code without findings: the cache is asked at every push of a selector, and what
it answers is added to the signatures each time. -/
def disassembleDirect (resolver : Resolver σ) (code : Bytes) (session : Session σ) :
    Except DisassemblyError Disassembly × Session σ :=
  let sweep := Sweep.scan code
  let ((lines, found), session) := session.directLines resolver sweep.placed []
  let result : Disassembly := ⟨lines, code.length, found⟩
  match sweep.cut with
  | some cut =>
    (.error (.truncated cut result),
      session.record (.truncated cut.instruction.mnemonic cut.pc lines.length))
  | none =>
    (.ok result, session.record (.disassembled code.length lines.length found.length))

end EvmInspect.Session
