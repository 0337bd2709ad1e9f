import EvmInspect.Text.Numeral

namespace EvmInspect.Abi

inductive AbiType
  | uint (bits : Nat)
  | int (bits : Nat)
  | bool
  | address
  | fixedBytes (size : Nat)
  | bytes
  | string
  | array (element : AbiType)
  | fixedArray (element : AbiType) (length : Nat)
  | tuple (members : List AbiType)

def wordSize : Nat := 32

namespace AbiType

mutual
def spell : AbiType → List Char
  | .uint bits => ['u', 'i', 'n', 't'] ++ Text.decimal bits
  | .int bits => ['i', 'n', 't'] ++ Text.decimal bits
  | .bool => ['b', 'o', 'o', 'l']
  | .address => ['a', 'd', 'd', 'r', 'e', 's', 's']
  | .fixedBytes size => ['b', 'y', 't', 'e', 's'] ++ Text.decimal size
  | .bytes => ['b', 'y', 't', 'e', 's']
  | .string => ['s', 't', 'r', 'i', 'n', 'g']
  | .array element => element.spell ++ ['[', ']']
  | .fixedArray element length => element.spell ++ ('[' :: (Text.decimal length ++ [']']))
  | .tuple [] => ['(', ')']
  | .tuple (member :: members) => '(' :: (member.spell ++ (spellMore members ++ [')']))

def spellMore : List AbiType → List Char
  | [] => []
  | member :: members => ',' :: (member.spell ++ spellMore members)
end

def display (t : AbiType) : String :=
  String.ofList t.spell

mutual
/-- Whether a value stands in the tail of a sequence, because its size depends on what it is. -/
def isDynamic : AbiType → Bool
  | .bytes | .string | .array _ => true
  | .fixedArray element _ => element.isDynamic
  | .tuple members => anyDynamic members
  | _ => false

def anyDynamic : List AbiType → Bool
  | [] => false
  | member :: members => member.isDynamic || anyDynamic members
end

mutual
/-- The number of bytes that a value takes in the head of a sequence, when that is a size. A value
in the tail takes a word, for its offset. -/
def headSize? : AbiType → Option Nat
  | .fixedArray element length =>
    if element.isDynamic then some wordSize
    else element.headSize? >>= fun size => Size.mul? size length
  | .tuple members => if anyDynamic members then some wordSize else headSizes? 0 members
  | _ => some wordSize

def headSizes? (total : Nat) : List AbiType → Option Nat
  | [] => some total
  | member :: members =>
    member.headSize? >>= fun size => Size.add? total size >>= fun total => headSizes? total members
end

end AbiType
end EvmInspect.Abi
