namespace EvmInspect

/-- A byte string: code, call data, or text as it is stored. -/
abbrev Bytes := List UInt8

namespace Size

/-- The first number that is no longer a size: a size fits 64 bits. -/
def limit : Nat := 1 <<< 64

def fit? (n : Nat) : Option Nat :=
  if n < limit then some n else none

def add? (a b : Nat) : Option Nat :=
  fit? (a + b)

def mul? (a b : Nat) : Option Nat :=
  fit? (a * b)

theorem fit?_eq_some {n m : Nat} : fit? n = some m ↔ n < limit ∧ n = m := by
  unfold fit?
  split <;> simp [*]

end Size
end EvmInspect
