namespace EvmInspect

/-- A set of effect flags. The empty set means that the effects are not known. -/
structure Effects where
  bits : BitVec 10
deriving DecidableEq

namespace Effects

instance : Union Effects := ⟨fun a b => ⟨a.bits ||| b.bits⟩⟩
instance : Inter Effects := ⟨fun a b => ⟨a.bits &&& b.bits⟩⟩
instance : SDiff Effects := ⟨fun a b => ⟨a.bits &&& ~~~b.bits⟩⟩

def flag (n : Nat) : Effects :=
  ⟨BitVec.twoPow 10 n⟩

/-- The set that a number stands for; bits beyond the flags do not count. -/
def ofNat (n : Nat) : Effects :=
  ⟨BitVec.ofNat 10 n⟩

def toNat (e : Effects) : Nat :=
  e.bits.toNat

def none : Effects := ⟨0⟩

def read : Effects := flag 0

def write : Effects := flag 1

def trigger : Effects := flag 2

def stateWrite : Effects := write ∪ flag 3

def addressWrite : Effects := write ∪ flag 4

def transfer : Effects := stateWrite ∪ trigger ∪ flag 5

def mint : Effects := transfer ∪ flag 6

def burn : Effects := transfer ∪ flag 7

def selfdestruct : Effects := addressWrite ∪ stateWrite ∪ trigger ∪ flag 8

def accessControlUpdate : Effects := stateWrite ∪ flag 9

def isUnknown (e : Effects) : Bool :=
  e == none

def meets (a b : Effects) : Bool :=
  a ∩ b != none

def includes (a b : Effects) : Bool :=
  a ∩ b == b

/-- The effects with a name. A bare write has none, since it only stands within others. -/
def names : List (Effects × String) := [
  (read, "read"),
  (trigger, "trigger"),
  (stateWrite, "state write"),
  (addressWrite, "address write"),
  (transfer, "transfer"),
  (mint, "mint"),
  (burn, "burn"),
  (selfdestruct, "selfdestruct"),
  (accessControlUpdate, "access control update")]

def name (e : Effects) : String :=
  (names.lookup e).getD "unknown"

def constants : List (String × Effects) := [
  ("READ", read), ("WRITE", write), ("TRIGGER", trigger), ("STATE_WRITE", stateWrite),
  ("ADDRESS_WRITE", addressWrite), ("TRANSFER", transfer), ("MINT", mint), ("BURN", burn),
  ("SELFDESTRUCT", selfdestruct), ("ACCESS_CONTROL_UPDATE", accessControlUpdate)]

end Effects
end EvmInspect
