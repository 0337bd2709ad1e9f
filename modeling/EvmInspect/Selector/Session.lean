import EvmInspect.Selector.Cache

namespace EvmInspect

/-- A cache, what its resolver remembers, and what happened so far. -/
structure Session (σ : Type) where
  cache : Cache := {}
  memory : σ
  /-- The events, the oldest first. -/
  journal : List Event := []

namespace Session
variable {σ : Type}

def record (session : Session σ) (event : Event) : Session σ :=
  { session with journal := session.journal ++ [event] }

def resolve (resolver : Resolver σ) (s : Selector) (session : Session σ) :
    List String × Session σ :=
  match session.cache.known? s with
  | some found => (found, session)
  | none =>
    let reply := resolver s session.memory
    let (kept, cache) := session.cache.counted.store s reply.candidates
    (kept, ⟨cache, reply.memory, session.journal ++ reply.events ++ [reply.event s]⟩)

end Session
end EvmInspect
