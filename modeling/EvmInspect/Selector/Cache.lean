import EvmInspect.Selector.Builtin
import EvmInspect.Selector.Resolver

namespace EvmInspect

/-- What was learned from a resolver, and how often it was asked. -/
structure Cache where
  /-- Each learned selector once, in the order in which they were learned. -/
  learned : List (Selector × List String) := []
  remoteLookups : Nat := 0
deriving DecidableEq

namespace Cache

/-- The candidates of a selector that is known, where the built-in ones come first. -/
def known? (cache : Cache) (s : Selector) : Option (List String) :=
  (Builtin.candidates? s).or (cache.learned.lookup s)

def counted (cache : Cache) : Cache :=
  { cache with remoteLookups := cache.remoteLookups + 1 }

/-- Keeps an answer, unless there is one already, and gives the one that is kept. -/
def store (cache : Cache) (s : Selector) (answer : List String) : List String × Cache :=
  match cache.learned.lookup s with
  | some earlier => (earlier, cache)
  | none => (answer, { cache with learned := cache.learned ++ [(s, answer)] })

/-- What is stored is known from then on. -/
theorem known?_store (cache : Cache) (s : Selector) (answer : List String)
    (h : Builtin.candidates? s = none) :
    (cache.store s answer).2.known? s = some (cache.store s answer).1 := by
  unfold store known?
  cases hl : cache.learned.lookup s with
  | some earlier => simp [h, hl]
  | none => simp [h, hl, List.lookup_append]

def size (cache : Cache) : Nat :=
  Builtin.table.length + cache.learned.length

def isEmpty (cache : Cache) : Bool :=
  cache.size == 0

def display (cache : Cache) : String :=
  "SelectorCache \x7b known: " ++ toString cache.size ++
    ", remote_lookups: " ++ toString cache.remoteLookups ++ " \x7d"

end Cache

end EvmInspect
