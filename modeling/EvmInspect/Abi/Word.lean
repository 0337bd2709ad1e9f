import EvmInspect.Abi.Error

namespace EvmInspect.Abi

structure Word where
  bytes : Bytes
  length_bytes : bytes.length = wordSize
deriving DecidableEq

/-- The number that bytes denote, the highest first. -/
def numberOf (bytes : Bytes) : Nat :=
  bytes.foldl (fun n b => n * 256 + b.toNat) 0

/-- The last `count` bytes of a number, the highest first. -/
def numberBytes : (count : Nat) → Nat → Bytes
  | 0, _ => []
  | count + 1, n => numberBytes count (n / 256) ++ [UInt8.ofNat (n % 256)]

theorem length_numberBytes (count n : Nat) : (numberBytes count n).length = count := by
  induction count generalizing n with
  | zero => rfl
  | succ count ih => simp [numberBytes, ih]

namespace Word

def limit : Nat := 1 <<< 256

def toNat (w : Word) : Nat :=
  numberOf w.bytes

def ofNat (n : Nat) : Word :=
  ⟨numberBytes wordSize n, length_numberBytes _ _⟩

def toInt (w : Word) : Int :=
  if w.toNat < limit / 2 then w.toNat else (w.toNat : Int) - limit

def ofInt (n : Int) : Word :=
  ofNat (n % limit).toNat

/-- Whether the bytes above the low `bits` are all ones if these have their highest bit set, and all
zeros if not. -/
def continuesSign (bits : Nat) (w : Word) : Bool :=
  let above := wordSize - bits / 8
  let sign : UInt8 := if w.bytes.getD above 0 &&& 0x80 != 0 then 0xff else 0
  (w.bytes.take above).all (· == sign)

end Word

def fitsUint (bits n : Nat) : Bool :=
  n < 1 <<< bits

def fitsInt (bits : Nat) (n : Int) : Bool :=
  let half : Nat := 1 <<< (bits - 1)
  n < half && -half ≤ n

end EvmInspect.Abi
