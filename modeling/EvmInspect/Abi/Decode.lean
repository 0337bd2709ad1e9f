import EvmInspect.Abi.Type.Grammar
import EvmInspect.Abi.Value
import EvmInspect.Abi.Word

namespace EvmInspect.Abi

def readWord (base : Bytes) (pos : Nat) : Except AbiError Word :=
  let bytes := (base.drop pos).take wordSize
  if h : bytes.length = wordSize then .ok ⟨bytes, h⟩ else .error (.outOfBounds pos base.length)

/-- The offset or length at a position, which may not be larger than what there is to point into. -/
def readSize (base : Bytes) (pos : Nat) : Except AbiError Nat := do
  let word ← readWord base pos
  if word.toNat ≤ base.length then .ok word.toNat else .error (.invalidOffset pos)

def sliceFrom (base : Bytes) (pos : Nat) : Except AbiError Bytes :=
  if pos ≤ base.length then .ok (base.drop pos) else .error (.outOfBounds pos base.length)

def readPayload (base : Bytes) (pos : Nat) : Except AbiError Bytes := do
  let length ← readSize base pos
  let start := pos + wordSize
  if start + length ≤ base.length then .ok ((base.drop start).take length)
  else .error (.outOfBounds start base.length)

def headSize (t : AbiType) : Except AbiError Nat :=
  match t.headSize? with
  | some size => .ok size
  | none => .error (.unsupportedType t.display)

def nextHead (t : AbiType) (head : Nat) : Except AbiError Nat := do
  let size ← headSize t
  match Size.add? head size with
  | some next => .ok next
  | none => .error (.unsupportedType t.display)

def readEach (t : AbiType) (valueAt : Nat → Except AbiError AbiValue) :
    (count head : Nat) → Except AbiError (List AbiValue)
  | 0, _ => .ok []
  | count + 1, head => do
    let value ← valueAt head
    let next ← nextHead t head
    let values ← readEach t valueAt count next
    .ok (value :: values)

/-- Where the value whose head is at `head` begins. -/
def locate (t : AbiType) (base : Bytes) (head : Nat) : Except AbiError Nat :=
  if t.isDynamic then readSize base head else .ok head

mutual
def decodeValue : AbiType → (base : Bytes) → (pos : Nat) → Except AbiError AbiValue
  | .uint bits, base, pos => do
    let word ← readWord base pos
    if fitsUint bits word.toNat then .ok (.uint word.toNat)
    else .error (.valueOutOfRange (.uint bits))
  | .int bits, base, pos => do
    let word ← readWord base pos
    if word.continuesSign bits then .ok (.int word.toInt)
    else .error (.valueOutOfRange (.int bits))
  | .bool, base, pos => do
    let word ← readWord base pos
    if word.toNat ≤ 1 then .ok (.bool (word.toNat == 1)) else .error (.invalidBool pos)
  | .address, base, pos => do
    let word ← readWord base pos
    if (word.bytes.take 12).all (· == 0) then
      .ok (.address ⟨word.bytes.drop 12, by simp [word.length_bytes, wordSize]⟩)
    else .error (.dirtyPadding .address pos)
  | .fixedBytes size, base, pos => do
    let word ← readWord base pos
    if (word.bytes.drop size).all (· == 0) then .ok (.fixedBytes (word.bytes.take size))
    else .error (.dirtyPadding (.fixedBytes size) pos)
  | .bytes, base, pos => do
    let payload ← readPayload base pos
    .ok (.bytes payload)
  | .string, base, pos => do
    let payload ← readPayload base pos
    match Text.Utf8.decode payload with
    | .ok text => .ok (.string (String.ofList text))
    | .error fault => .error (.invalidUtf8 fault)
  | .array element, base, pos => do
    let length ← readSize base pos
    let items ← sliceFrom base (pos + wordSize)
    let size ← headSize element
    match Size.mul? length size with
    | none => .error (.invalidOffset pos)
    | some needed =>
      if needed ≤ items.length then do
        let values ← readEach element
          (fun head => locate element items head >>= decodeValue element items) length 0
        .ok (.array values)
      else .error (.outOfBounds (pos + wordSize) base.length)
  | .fixedArray element length, base, pos => do
    let items ← sliceFrom base pos
    let size ← headSize element
    match Size.mul? size length with
    | none => .error (.unsupportedType (AbiType.fixedArray element length).display)
    | some needed =>
      if size = 0 then .error (.unsupportedType (AbiType.fixedArray element length).display)
      else if needed ≤ items.length then do
        let values ← readEach element
          (fun head => locate element items head >>= decodeValue element items) length 0
        .ok (.fixedArray values)
      else .error (.outOfBounds pos base.length)
  | .tuple members, base, pos => do
    let items ← sliceFrom base pos
    let values ← decodeSequence members items 0
    .ok (.tuple values)

/-- The values of a sequence, with the head of the first at `head`. A value of fixed size stands in
the head; for any other there is an offset, counted from the start of the sequence. -/
def decodeSequence : List AbiType → (base : Bytes) → (head : Nat) →
    Except AbiError (List AbiValue)
  | [], _, _ => .ok []
  | member :: members, base, head => do
    let pos ← locate member base head
    let value ← decodeValue member base pos
    let next ← nextHead member head
    let values ← decodeSequence members base next
    .ok (value :: values)
end

def decode (types : List AbiType) (data : Bytes) : Except AbiError (List AbiValue) :=
  if data.isEmpty && !types.isEmpty then .error (.emptyData types.length)
  else decodeSequence types data 0

end EvmInspect.Abi
