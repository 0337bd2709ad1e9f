import EvmInspect.Directory.Config

namespace EvmInspect

inductive ResolverError
  /-- The request was not sent, or the connection failed. -/
  | transport (reason : String)
  | status (code : Nat)
  | body (fault : Directory.BodyFault)
deriving DecidableEq

def ResolverError.message : ResolverError → String
  | .transport reason => "Transport error: " ++ reason
  | .status code => "Directory returned status " ++ toString code
  | .body fault => "Invalid response body: " ++ fault.message

inductive Event
  | querying (url : String)
  | resolved (selector : Selector) (count : Nat)
  | failed (selector : Selector) (error : ResolverError)
  | truncated (mnemonic : String) (pc lines : Nat)
  | disassembled (bytes lines signatures : Nat)
deriving DecidableEq

namespace Event

def isWarning : Event → Bool
  | .failed .. => true
  | _ => false

/-- The event in words; `elapsed` is the time that disassembling took. -/
def message (elapsed : String) : Event → String
  | .querying url => "Querying signature directory: " ++ url
  | .resolved selector count => s!"Resolved selector {selector.hex} to {count} signatures"
  | .failed selector error => s!"Failed to resolve selector {selector.hex}: {error.message}"
  | .truncated mnemonic pc lines => s!"Truncated {mnemonic} at pc {pc} after {lines} lines"
  | .disassembled bytes lines signatures =>
    s!"Disassembled {bytes} bytes into {lines} lines in {elapsed} ({signatures} signatures)"

end Event

/-- What a resolver gives back: its answer, what there is to tell, and what it remembers. -/
structure Reply (σ : Type) where
  outcome : Except ResolverError (List String)
  events : List Event
  memory : σ

namespace Reply
variable {σ : Type}

/-- The candidates that the answer stands for. A failure stands for none. -/
def candidates (reply : Reply σ) : List String :=
  match reply.outcome with
  | .ok found => found
  | .error _ => []

def event (s : Selector) (reply : Reply σ) : Event :=
  match reply.outcome with
  | .ok found => .resolved s found.length
  | .error error => .failed s error

end Reply

/-- A source of signatures. Its answer may depend on what it remembers of earlier questions. -/
abbrev Resolver (σ : Type) := Selector → σ → Reply σ

namespace Resolver

def offline : Resolver Unit :=
  fun _ memory => ⟨.ok [], [], memory⟩

/-- The resolver that asks the directory. `fetch` gives the body found at an address. -/
def directory (config : Directory.Config) (fetch : String → Except ResolverError Bytes) :
    Resolver Unit := fun selector memory =>
  let url := config.queryUrl selector
  let outcome := match fetch url with
    | .error error => .error error
    | .ok body => (Directory.signatures body).mapError .body
  ⟨outcome, [.querying url], memory⟩

end Resolver
end EvmInspect
