import EvmInspect.Selector.Session

namespace EvmInspect

inductive Call
  | begun (s : Selector)
  /-- The cache did not know the selector. -/
  | missed (s : Selector)
  | asking (s : Selector)
  | answered (s : Selector) (answer : List String)
  | done (s : Selector) (result : List String)
deriving DecidableEq

structure Shared where
  cache : Cache := {}
  calls : List Call := []

namespace Shared

/-- The step of a single call. The answer is arbitrary, and may differ from call to call. -/
inductive Step (w : Shared) : Shared → Prop
  | begin (s : Selector) : Step w { w with calls := w.calls ++ [.begun s] }
  | hit {n : Nat} {s : Selector} {known : List String} (call : w.calls[n]? = some (.begun s))
      (found : w.cache.known? s = some known) :
      Step w { w with calls := w.calls.set n (.done s known) }
  | miss {n : Nat} {s : Selector} (call : w.calls[n]? = some (.begun s))
      (unknown : w.cache.known? s = none) :
      Step w { w with calls := w.calls.set n (.missed s) }
  | count {n : Nat} {s : Selector} (call : w.calls[n]? = some (.missed s)) :
      Step w ⟨w.cache.counted, w.calls.set n (.asking s)⟩
  | answer {n : Nat} {s : Selector} (call : w.calls[n]? = some (.asking s)) (given : List String) :
      Step w { w with calls := w.calls.set n (.answered s given) }
  | store {n : Nat} {s : Selector} {given : List String}
      (call : w.calls[n]? = some (.answered s given)) :
      Step w ⟨(w.cache.store s given).2, w.calls.set n (.done s (w.cache.store s given).1)⟩

/-- What any number of steps, in any order, can lead to. -/
inductive Reachable : Shared → Prop
  | start : Reachable {}
  | step {w w' : Shared} (before : Reachable w) (move : Step w w') : Reachable w'

end Shared
end EvmInspect
