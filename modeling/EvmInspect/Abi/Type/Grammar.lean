import EvmInspect.Abi.Error
import EvmInspect.Text.Blank
import EvmInspect.Text.Brackets
import EvmInspect.Text.Cut

namespace EvmInspect.Abi.AbiType

def unsupported (text : List Char) : AbiError :=
  .unsupportedType (String.ofList text)

/-- The number of bits that digits ask for: whole bytes, at most a word. -/
def readBits? (text : List Char) : Option Nat :=
  (Text.readSize? text).filter fun bits => 0 < bits && bits ≤ 256 && bits % 8 == 0

def readBytes? (text : List Char) : Option Nat :=
  (Text.readSize? text).filter fun size => 1 ≤ size && size ≤ wordSize

def ofWord? (word : List Char) : Option AbiType :=
  match word with
  | ['a', 'd', 'd', 'r', 'e', 's', 's'] => some .address
  | ['b', 'o', 'o', 'l'] => some .bool
  | ['s', 't', 'r', 'i', 'n', 'g'] => some .string
  | ['b', 'y', 't', 'e', 's'] => some .bytes
  | ['b', 'y', 't', 'e'] => some (.fixedBytes 1)
  | ['u', 'i', 'n', 't'] => some (.uint 256)
  | ['i', 'n', 't'] => some (.int 256)
  | _ =>
    match Text.dropStart? ['u', 'i', 'n', 't'] word with
    | some bits => (readBits? bits).map .uint
    | none =>
      match Text.dropStart? ['i', 'n', 't'] word with
      | some bits => (readBits? bits).map .int
      | none =>
        (Text.dropStart? ['b', 'y', 't', 'e', 's'] word) >>= fun size =>
          (readBytes? size).map .fixedBytes

def tupleBody? (text : List Char) : Option (List Char) :=
  let text := (Text.dropStart? ['t', 'u', 'p', 'l', 'e'] text).getD text
  Text.dropStart? ['('] text >>= Text.dropLast? ')'

/-- The array of an element type whose brackets hold `size`. An array of fixed length must have a
head that is a size. -/
def arrayOf (element : AbiType) (size text : List Char) : Except AbiError AbiType :=
  if size = [] then .ok (.array element)
  else match Text.readSize? size with
    | none => .error (unsupported text)
    | some length =>
      if (AbiType.fixedArray element length).headSize?.isSome then .ok (.fixedArray element length)
      else .error (unsupported text)

/-- Reads a type whose text has fewer than `fuel` characters. -/
def readWithin : (fuel : Nat) → List Char → Except AbiError AbiType
  | 0, text => .error (unsupported text)
  | fuel + 1, text =>
    let text := Text.trim text
    match Text.dropLast? ']' text with
    | some body =>
      match Text.aroundLast? '[' body with
      | none => .error (unsupported text)
      | some (inner, size) => do
        let element ← readWithin fuel inner
        arrayOf element (Text.trim size) text
    | none =>
      match tupleBody? text with
      | some body => do
        let parts := (Text.splitTopLevel body).filter fun part => Text.trim part ≠ []
        let members ← parts.mapM (readWithin fuel)
        if members.isEmpty then .error (unsupported text) else .ok (.tuple members)
      | none =>
        match ofWord? text with
        | some type => .ok type
        | none => .error (unsupported text)

/-- The type that a text spells. Blanks around it, and around each part of it, do not count. -/
def read (text : List Char) : Except AbiError AbiType :=
  readWithin (text.length + 1) text

def ofText (text : String) : Except AbiError AbiType :=
  read text.toList

end EvmInspect.Abi.AbiType
