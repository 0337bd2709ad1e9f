import EvmInspect.Abi.Decode

namespace EvmInspect.Abi

/-- An encoded value of a sequence. Those of fixed size go into the head, the others into the tail,
with their offsets in the head. -/
structure Part where
  isDynamic : Bool
  bytes : Bytes
deriving DecidableEq

namespace Part

/-- The head, when the next part of the tail begins at `offset`. -/
def heads (offset : Nat) : List Part → Bytes
  | [] => []
  | part :: parts =>
    if part.isDynamic then (Word.ofNat offset).bytes ++ heads (offset + part.bytes.length) parts
    else part.bytes ++ heads offset parts

def tails : List Part → Bytes
  | [] => []
  | part :: parts => if part.isDynamic then part.bytes ++ tails parts else tails parts

def assemble (headLength : Nat) (parts : List Part) : Bytes :=
  heads headLength parts ++ tails parts

end Part

/-- Zeros behind some bytes, up to a whole number of words. -/
def padWords (bytes : Bytes) : Bytes :=
  bytes ++ List.replicate ((wordSize - bytes.length % wordSize) % wordSize) 0

def payload (bytes : Bytes) : Bytes :=
  (Word.ofNat bytes.length).bytes ++ padWords bytes

def headLength (total : Nat) : List AbiType → Except AbiError Nat
  | [] => .ok total
  | t :: types => do
    let total ← nextHead t total
    headLength total types

mutual
def encodeValue : AbiType → AbiValue → Except AbiError Bytes
  | .uint bits, .uint n =>
    if fitsUint bits n then .ok (Word.ofNat n).bytes else .error (.valueOutOfRange (.uint bits))
  | .int bits, .int n =>
    -- a number of more bits has no word
    if fitsInt 256 n && (Word.ofInt n).continuesSign bits then .ok (Word.ofInt n).bytes
    else .error (.valueOutOfRange (.int bits))
  | .bool, .bool b => .ok (Word.ofNat b.toNat).bytes
  | .address, .address a => .ok (List.replicate 12 0 ++ a.bytes)
  | .fixedBytes size, .fixedBytes bytes =>
    if bytes.length = size then .ok (padWords bytes)
    else .error (.typeMismatch (.fixedBytes size) (AbiValue.fixedBytes bytes).kind)
  | .bytes, .bytes bytes => .ok (payload bytes)
  | .string, .string text => .ok (payload (Text.Utf8.encode text.toList))
  | .array element, .array items => do
    let length ← headLength 0 (List.replicate items.length element)
    let parts ← items.mapM fun item =>
      return ⟨element.isDynamic, ← encodeValue element item⟩
    .ok ((Word.ofNat items.length).bytes ++ Part.assemble length parts)
  | .fixedArray element count, .fixedArray items =>
    if items.length = count then do
      let length ← headLength 0 (List.replicate count element)
      let parts ← items.mapM fun item =>
        return ⟨element.isDynamic, ← encodeValue element item⟩
      .ok (Part.assemble length parts)
    else .error (.typeMismatch (.fixedArray element count) (AbiValue.fixedArray items).kind)
  | .tuple members, .tuple items =>
    if items.length = members.length then do
      let length ← headLength 0 members
      let parts ← encodeParts members items
      .ok (Part.assemble length parts)
    else .error (.arityMismatch members.length items.length)
  | type, value => .error (.typeMismatch type value.kind)

def encodeParts : List AbiType → List AbiValue → Except AbiError (List Part)
  | t :: types, value :: values => do
    let bytes ← encodeValue t value
    let parts ← encodeParts types values
    .ok (⟨t.isDynamic, bytes⟩ :: parts)
  | _, _ => .ok []
end

def encode (types : List AbiType) (values : List AbiValue) : Except AbiError Bytes :=
  if values.length = types.length then do
    let length ← headLength 0 types
    let parts ← encodeParts types values
    .ok (Part.assemble length parts)
  else .error (.arityMismatch types.length values.length)

end EvmInspect.Abi
