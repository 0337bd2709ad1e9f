import EvmInspect.Bytes

namespace EvmInspect.Text.Utf8

def encode (text : List Char) : Bytes :=
  text.flatMap String.utf8EncodeChar

inductive Token
  | char (c : Char)
  /-- A sequence that the byte after its first `length` ones breaks off. -/
  | invalid (length : Nat)
  /-- A sequence that the end of the bytes cuts off. -/
  | incomplete
deriving DecidableEq

def isContinuation (b : UInt8) : Bool :=
  0x80 ≤ b.toNat && b.toNat ≤ 0xbf

/-- The bits that a continuation byte adds to a number. -/
def push (n : Nat) (b : UInt8) : Nat :=
  n * 64 + b.toNat % 64

/-- What begins with a byte. The bounds of the second byte leave out long forms, surrogates and
numbers above U+10FFFF. -/
structure Shape where
  start : Nat
  more : Nat
  low : Nat
  high : Nat
deriving DecidableEq

def shape? (first : Nat) : Option Shape :=
  if first < 0xc2 then none
  else if first < 0xe0 then some ⟨first - 0xc0, 1, 0x80, 0xbf⟩
  else if first = 0xe0 then some ⟨0, 2, 0xa0, 0xbf⟩
  else if first = 0xed then some ⟨0xd, 2, 0x80, 0x9f⟩
  else if first < 0xf0 then some ⟨first - 0xe0, 2, 0x80, 0xbf⟩
  else if first = 0xf0 then some ⟨0, 3, 0x90, 0xbf⟩
  else if first < 0xf4 then some ⟨first - 0xf0, 3, 0x80, 0xbf⟩
  else if first = 0xf4 then some ⟨4, 3, 0x80, 0x8f⟩
  else none

/-- Reads `more` continuation bytes behind the `length` bytes that gave the number `n`. -/
def finish (n length : Nat) : (more : Nat) → Bytes → Token × Bytes
  | 0, bytes => (.char (Char.ofNat n), bytes)
  | _ + 1, [] => (.incomplete, [])
  | more + 1, b :: bytes =>
    if isContinuation b then finish (push n b) (length + 1) more bytes
    else (.invalid length, b :: bytes)

/-- What stands at the front of `first :: bytes`, and the bytes behind it. -/
def next (first : UInt8) (bytes : Bytes) : Token × Bytes :=
  if first.toNat < 0x80 then (.char (Char.ofNat first.toNat), bytes)
  else match shape? first.toNat, bytes with
    | none, _ => (.invalid 1, bytes)
    | some _, [] => (.incomplete, [])
    | some shape, second :: rest =>
      if shape.low ≤ second.toNat ∧ second.toNat ≤ shape.high then
        finish (push shape.start second) 2 (shape.more - 1) rest
      else (.invalid 1, bytes)

theorem finish_length_le (n length more : Nat) (bytes : Bytes) :
    (finish n length more bytes).2.length ≤ bytes.length := by
  fun_induction finish n length more bytes <;> grind

theorem next_length_le (first : UInt8) (bytes : Bytes) :
    (next first bytes).2.length ≤ bytes.length := by
  unfold next
  split
  · exact Nat.le_refl _
  · split
    · exact Nat.le_refl _
    · exact Nat.le_refl _
    · split
      · exact Nat.le_succ_of_le (finish_length_le ..)
      · exact Nat.le_refl _

def tokens : Bytes → List Token
  | [] => []
  | first :: bytes => (next first bytes).1 :: tokens (next first bytes).2
termination_by bytes => bytes.length
decreasing_by exact Nat.lt_succ_of_le (next_length_le first bytes)

/-- Why bytes are no text: the index of the sequence at fault, and what is wrong with it. -/
inductive Fault
  | invalid (length index : Nat)
  | incomplete (index : Nat)
deriving DecidableEq

def Fault.message : Fault → String
  | .invalid length index => s!"invalid utf-8 sequence of {length} bytes from index {index}"
  | .incomplete index => s!"incomplete utf-8 byte sequence from index {index}"

/-- The characters, when every token is one. The first token begins at `index`. -/
def collect (index : Nat) : List Token → Except Fault (List Char)
  | [] => .ok []
  | .char c :: rest => (collect (index + c.utf8Size) rest).map (c :: ·)
  | .invalid length :: _ => .error (.invalid length index)
  | .incomplete :: _ => .error (.incomplete index)

def decode (bytes : Bytes) : Except Fault (List Char) :=
  collect 0 (tokens bytes)

def Token.char? : Token → Option Char
  | .char c => some c
  | _ => none

/-- The characters that bytes spell, with a gap for each sequence that spells none. -/
def decodeWithGaps (bytes : Bytes) : List (Option Char) :=
  (tokens bytes).map Token.char?

end EvmInspect.Text.Utf8
