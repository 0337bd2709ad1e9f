import EvmInspect.Disassembly.Findings
import EvmInspect.Selector.Interleaving

namespace EvmInspect

namespace Call

def selector : Call → Selector
  | .begun s | .missed s | .asking s | .answered s _ | .done s _ => s

/-- The step of a call, with the cache and the memory of the resolver before and after it. -/
inductive Moves {σ : Type} (resolver : Resolver σ) : Call → Cache → σ → Call → Cache → σ → Prop
  | hit {s : Selector} {known : List String} {cache : Cache} {memory : σ}
      (found : cache.known? s = some known) :
      Moves resolver (.begun s) cache memory (.done s known) cache memory
  | miss {s : Selector} {cache : Cache} {memory : σ} (unknown : cache.known? s = none) :
      Moves resolver (.begun s) cache memory (.missed s) cache memory
  | count {s : Selector} {cache : Cache} {memory : σ} :
      Moves resolver (.missed s) cache memory (.asking s) cache.counted memory
  | answer {s : Selector} {cache : Cache} {memory : σ} :
      Moves resolver (.asking s) cache memory
        (.answered s (resolver s memory).candidates) cache (resolver s memory).memory
  | store {s : Selector} {given : List String} {cache : Cache} {memory : σ} :
      Moves resolver (.answered s given) cache memory
        (.done s (cache.store s given).1) (cache.store s given).2 memory

/-- These are the steps that calls take among other calls. -/
theorem Moves.step {σ : Type} {resolver : Resolver σ} {call call' : Call} {cache cache' : Cache}
    {memory memory' : σ} (h : Moves resolver call cache memory call' cache' memory')
    {calls : List Call} {n : Nat} (at_n : calls[n]? = some call) :
    Shared.Step ⟨cache, calls⟩ ⟨cache', calls.set n call'⟩ := by
  cases h with
  | hit found => exact .hit at_n found
  | miss unknown => exact .miss at_n unknown
  | count => exact .count at_n
  | answer => exact .answer at_n _
  | store => exact .store at_n

end Call

/-- A pass over a code, on its way. At a selector that it has not met it calls the cache. -/
structure Pass where
  code : Bytes
  pc : Nat := 0
  memo : Findings := []
  result : Disassembly := ⟨[], code.length, []⟩
  call : Option Call := none
deriving DecidableEq

namespace Pass

def write (pass : Pass) (p : Placed) : Pass :=
  { pass with
    pc := pass.pc + p.instruction.size
    result := { pass.result with lines := pass.result.lines ++ [pass.memo.line p] } }

def ask (pass : Pass) (s : Selector) : Pass :=
  { pass with call := some (.begun s) }

def learn (pass : Pass) (s : Selector) (known : List String) : Pass :=
  { pass with
    memo := pass.memo ++ [(s, known)]
    result := { pass.result with signatures := Findings.addNew pass.result.signatures known }
    call := none }

inductive Moves {σ : Type} (resolver : Resolver σ) : Pass → Cache → σ → Pass → Cache → σ → Prop
  | write {pass : Pass} {p : Placed} {cache : Cache} {memory : σ} (free : pass.call = none)
      (found : Step.decode pass.code pass.pc = some (.whole p))
      (met : ∀ s, p.selector? = some s → (pass.memo.lookup s).isSome) :
      Moves resolver pass cache memory (pass.write p) cache memory
  | ask {pass : Pass} {p : Placed} {s : Selector} {cache : Cache} {memory : σ}
      (free : pass.call = none) (found : Step.decode pass.code pass.pc = some (.whole p))
      (pushed : p.selector? = some s) (unmet : pass.memo.lookup s = none) :
      Moves resolver pass cache memory (pass.ask s) cache memory
  | call {pass : Pass} {call call' : Call} {cache cache' : Cache} {memory memory' : σ}
      (calling : pass.call = some call)
      (move : call.Moves resolver cache memory call' cache' memory') :
      Moves resolver pass cache memory { pass with call := some call' } cache' memory'
  | learn {pass : Pass} {p : Placed} {s : Selector} {known : List String} {cache : Cache}
      {memory : σ} (returned : pass.call = some (.done s known))
      (found : Step.decode pass.code pass.pc = some (.whole p)) :
      Moves resolver pass cache memory ((pass.learn s known).write p) cache memory

/-- What comes out of a pass, once it has come to the end or to a broken instruction. -/
def outcome? (pass : Pass) : Option (Except DisassemblyError Disassembly) :=
  match pass.call, Step.decode pass.code pass.pc with
  | none, none => some (.ok pass.result)
  | none, some (.truncated cut) => some (.error (.truncated cut pass.result))
  | _, _ => none

end Pass

/-- A cache, what its resolver remembers, and the passes that use them. -/
structure Batch (σ : Type) where
  cache : Cache
  memory : σ
  passes : List Pass

namespace Batch
variable {σ : Type}

def start (cache : Cache) (memory : σ) (codes : List Bytes) : Batch σ :=
  ⟨cache, memory, codes.map fun code => { code := code }⟩

inductive Step (resolver : Resolver σ) (w : Batch σ) : Batch σ → Prop
  | pass {n : Nat} {pass pass' : Pass} {cache : Cache} {memory : σ}
      (at_n : w.passes[n]? = some pass)
      (move : pass.Moves resolver w.cache w.memory pass' cache memory) :
      Step resolver w ⟨cache, memory, w.passes.set n pass'⟩

def outcomes? (w : Batch σ) : Option (List (Except DisassemblyError Disassembly)) :=
  w.passes.mapM Pass.outcome?

end Batch
end EvmInspect
