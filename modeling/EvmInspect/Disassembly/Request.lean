import EvmInspect.Disassembly.Run

namespace EvmInspect

inductive Request
  | resolve (s : Selector)
  /-- To tell what is known about a selector, without asking anybody. -/
  | cached (s : Selector)
  | disassemble (code : Bytes)
  | disassembleText (text : String)
deriving DecidableEq

inductive Response
  | candidates (found : List String)
  | known (found : Option (List String))
  | disassembly (result : Except DisassemblyError Disassembly)

/-- The four bytes behind the opcode `0x63`. -/
def Placed.push4? (p : Placed) : Option Selector :=
  if p.instruction.opcode = 0x63 then
    match p.immediate with
    | [a, b, c, d] => some ⟨a, b, c, d⟩
    | _ => none
  else none

/-- The program finds the same selectors pushed. -/
theorem Placed.selector?_eq_push4? (p : Placed) : p.selector? = p.push4? := by
  unfold selector? push4? Selector.ofBytes?
  rfl

/-- The selectors that a code pushes, before its end or before the instruction that it cuts off. -/
def pushedSelectors (code : Bytes) : List Selector :=
  (Sweep.scan code).placed.filterMap Placed.push4?

theorem pushedSelectors_eq (code : Bytes) :
    pushedSelectors code = (Sweep.scan code).placed.filterMap Placed.selector? := by
  rw [pushedSelectors, funext Placed.selector?_eq_push4?]

/-- Of some selectors those that are not built in, each where it stands first. -/
def foreignOnce (sels : List Selector) : List Selector :=
  (sels.filter fun s => s ∉ Builtin.table.map Prod.fst).eraseDups

namespace Request

/-- The selectors whose candidates a request needs, in order. -/
def demands : Request → List Selector
  | .resolve s => [s]
  | .cached _ => []
  | .disassemble code => pushedSelectors code
  | .disassembleText text =>
    match Hex.decodeText (Session.codeDigits text.toList) with
    | .ok code => pushedSelectors code
    | .error _ => []

def firstDemands (requests : List Request) : List Selector :=
  foreignOnce (requests.flatMap demands)

end Request

namespace Session
variable {σ : Type}

def serve (resolver : Resolver σ) (request : Request) (session : Session σ) :
    Response × Session σ :=
  match request with
  | .resolve s =>
    let (found, session) := session.resolve resolver s
    (.candidates found, session)
  | .cached s => (.known (session.cache.known? s), session)
  | .disassemble code =>
    let (result, session) := session.disassemble resolver code
    (.disassembly result, session)
  | .disassembleText text =>
    let (result, session) := session.disassembleText resolver text
    (.disassembly result, session)

def serveAll (resolver : Resolver σ) : List Request → Session σ → List Response × Session σ
  | [], session => ([], session)
  | request :: requests, session =>
    let (first, session) := session.serve resolver request
    let (others, session) := serveAll resolver requests session
    (first :: others, session)

end Session

abbrev Inquiries := List (Selector × Except ResolverError (List String))

/-- What is kept of the answers: a failure counts as no candidates. -/
def Inquiries.answers (inquiries : Inquiries) : List (Selector × List String) :=
  inquiries.map fun inquiry => (inquiry.1, inquiry.2.toOption.getD [])

/-- The same resolver, which also remembers what it was asked and what it answered. -/
def Resolver.recorded {σ : Type} (resolver : Resolver σ) : Resolver (Inquiries × σ) :=
  fun s memory =>
    let reply := resolver s memory.2
    ⟨reply.outcome, reply.events, memory.1 ++ [(s, reply.outcome)], reply.memory⟩

def Session.unrecorded {σ : Type} (session : Session (Inquiries × σ)) : Session σ :=
  ⟨session.cache, session.memory.2, session.journal⟩

end EvmInspect
