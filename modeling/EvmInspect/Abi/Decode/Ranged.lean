import EvmInspect.Abi.Decode

namespace EvmInspect.Abi.Ranged

/-- A step outside its range. The program does not report it as an error. -/
inductive Crash
  /-- A sum that is no size. -/
  | sum (a b : Nat)
  /-- A difference below zero. -/
  | difference (a b : Nat)
  /-- A position at which there is no byte. -/
  | position (pos length : Nat)
  /-- A slice that runs backwards or behind the last byte. -/
  | slice (first stop length : Nat)
  /-- More or fewer bytes than there is room for. -/
  | copy (room length : Nat)
deriving DecidableEq

/-- How a run ends without a result. -/
inductive Halt
  | reported (error : AbiError)
  | crashed (crash : Crash)

/-- A computation that fails, if it does, with an error that it reports. -/
def report {α : Type} (x : Except AbiError α) : Except Halt α :=
  x.mapError .reported

def crash {α : Type} (c : Crash) : Except Halt α :=
  .error (.crashed c)

def add (a b : Nat) : Except Halt Nat :=
  if a + b < Size.limit then .ok (a + b) else crash (.sum a b)

def sub (a b : Nat) : Except Halt Nat :=
  if b ≤ a then .ok (a - b) else crash (.difference a b)

def byteAt (bytes : Bytes) (pos : Nat) : Except Halt UInt8 :=
  match bytes[pos]? with
  | some b => .ok b
  | none => crash (.position pos bytes.length)

def slice? (bytes : Bytes) (first stop : Nat) : Option Bytes :=
  if first ≤ stop ∧ stop ≤ bytes.length then some ((bytes.take stop).drop first) else none

def slice (bytes : Bytes) (first stop : Nat) : Except Halt Bytes :=
  match slice? bytes first stop with
  | some part => .ok part
  | none => crash (.slice first stop bytes.length)

def copy (room : Nat) (bytes : Bytes) : Except Halt { copied : Bytes // copied.length = room } :=
  if h : bytes.length = room then .ok ⟨bytes, h⟩ else crash (.copy room bytes.length)

def readWord (base : Bytes) (pos : Nat) : Except Halt Word :=
  match Size.add? pos wordSize >>= slice? base pos with
  | none => report (.error (.outOfBounds pos base.length))
  | some bytes => do
    let copied ← copy wordSize bytes
    .ok ⟨copied.1, copied.2⟩

/-- Only the last eight bytes of the word may count. -/
def readSize (base : Bytes) (pos : Nat) : Except Halt Nat := do
  let word ← readWord base pos
  let high ← slice word.bytes 0 (wordSize - 8)
  if high.any (· != 0) then report (.error (.invalidOffset pos))
  else do
    let low ← slice word.bytes (wordSize - 8) wordSize
    let copied ← copy 8 low
    let n := numberOf copied.1
    if n ≤ base.length then .ok n else report (.error (.invalidOffset pos))

def sliceFrom (base : Bytes) (pos : Nat) : Except Halt Bytes :=
  match slice? base pos base.length with
  | some rest => .ok rest
  | none => report (.error (.outOfBounds pos base.length))

def readPayload (base : Bytes) (pos : Nat) : Except Halt Bytes := do
  let length ← readSize base pos
  let start ← add pos wordSize
  match Size.add? start length >>= slice? base start with
  | some data => .ok data
  | none => report (.error (.outOfBounds start base.length))

/-- Whether the bytes above the low `bits` continue the sign of a word. -/
def continuesSign (bits : Nat) (word : Word) : Except Halt Bool :=
  let width := bits / 8
  if wordSize ≤ width then .ok true
  else do
    let above ← sub wordSize width
    let first ← byteAt word.bytes above
    let sign : UInt8 := if first &&& 0x80 != 0 then 0xff else 0
    let high ← slice word.bytes 0 above
    .ok (high.all (· == sign))

def readEach (t : AbiType) (valueAt : Nat → Except Halt AbiValue) :
    (count head : Nat) → Except Halt (List AbiValue)
  | 0, _ => .ok []
  | count + 1, head => do
    let value ← valueAt head
    let next ← report (nextHead t head)
    let values ← readEach t valueAt count next
    .ok (value :: values)

def locate (t : AbiType) (base : Bytes) (head : Nat) : Except Halt Nat :=
  if t.isDynamic then readSize base head else .ok head

mutual
def decodeValue : AbiType → (base : Bytes) → (pos : Nat) → Except Halt AbiValue
  | .uint bits, base, pos => do
    let word ← readWord base pos
    if fitsUint bits word.toNat then .ok (.uint word.toNat)
    else report (.error (.valueOutOfRange (.uint bits)))
  | .int bits, base, pos => do
    let word ← readWord base pos
    let continued ← continuesSign bits word
    if continued then .ok (.int word.toInt)
    else report (.error (.valueOutOfRange (.int bits)))
  | .bool, base, pos => do
    let word ← readWord base pos
    let high ← slice word.bytes 0 (wordSize - 1)
    let last ← byteAt word.bytes (wordSize - 1)
    if high.any (· != 0) || 1 < last then report (.error (.invalidBool pos))
    else .ok (.bool (last == 1))
  | .address, base, pos => do
    let word ← readWord base pos
    let padding ← slice word.bytes 0 12
    if padding.any (· != 0) then report (.error (.dirtyPadding .address pos))
    else do
      let rest ← slice word.bytes 12 wordSize
      let copied ← copy 20 rest
      .ok (.address ⟨copied.1, copied.2⟩)
  | .fixedBytes size, base, pos => do
    let word ← readWord base pos
    let padding ← slice word.bytes size wordSize
    if padding.any (· != 0) then report (.error (.dirtyPadding (.fixedBytes size) pos))
    else do
      let data ← slice word.bytes 0 size
      .ok (.fixedBytes data)
  | .bytes, base, pos => do
    let payload ← readPayload base pos
    .ok (.bytes payload)
  | .string, base, pos => do
    let payload ← readPayload base pos
    match Text.Utf8.decode payload with
    | .ok text => .ok (.string (String.ofList text))
    | .error fault => report (.error (.invalidUtf8 fault))
  | .array element, base, pos => do
    let length ← readSize base pos
    let start ← add pos wordSize
    let items ← sliceFrom base start
    let size ← report (headSize element)
    match Size.mul? length size with
    | none => report (.error (.invalidOffset pos))
    | some needed =>
      if needed ≤ items.length then do
        let values ← readEach element
          (fun head => locate element items head >>= decodeValue element items) length 0
        .ok (.array values)
      else do
        let start ← add pos wordSize
        report (.error (.outOfBounds start base.length))
  | .fixedArray element length, base, pos => do
    let items ← sliceFrom base pos
    let size ← report (headSize element)
    if size = 0 then
      report (.error (.unsupportedType (AbiType.fixedArray element length).display))
    else
      match Size.mul? size length with
      | none => report (.error (.unsupportedType (AbiType.fixedArray element length).display))
      | some needed =>
        if needed ≤ items.length then do
          let values ← readEach element
            (fun head => locate element items head >>= decodeValue element items) length 0
          .ok (.fixedArray values)
        else report (.error (.outOfBounds pos base.length))
  | .tuple members, base, pos => do
    let items ← sliceFrom base pos
    let values ← decodeSequence members items 0
    .ok (.tuple values)

def decodeSequence : List AbiType → (base : Bytes) → (head : Nat) →
    Except Halt (List AbiValue)
  | [], _, _ => .ok []
  | member :: members, base, head => do
    let pos ← locate member base head
    let value ← decodeValue member base pos
    let next ← report (nextHead member head)
    let values ← decodeSequence members base next
    .ok (value :: values)
end

def decode (types : List AbiType) (data : Bytes) : Except Halt (List AbiValue) :=
  if data.isEmpty && !types.isEmpty then report (.error (.emptyData types.length))
  else decodeSequence types data 0

end EvmInspect.Abi.Ranged
