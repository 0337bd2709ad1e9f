import EvmInspect.Hex
import EvmInspect.Json
import EvmInspect.Keccak

namespace EvmInspect.Abi

structure Address where
  bytes : Bytes
  length_bytes : bytes.length = 20
deriving DecidableEq

namespace Address

def ofBytes? (bytes : Bytes) : Option Address :=
  if h : bytes.length = 20 then some ⟨bytes, h⟩ else none

def raise (half : UInt8) (digit : Char) : Char :=
  if 8 ≤ half then digit.toUpper else digit

def halves (bytes : Bytes) : Bytes :=
  bytes.flatMap fun b => [b / 16, b % 16]

/-- The digits of the address. Their case is a checksum, taken from the hash of the digits in
lower case. -/
def spell (a : Address) : List Char :=
  let digits := Hex.encode a.bytes
  let hash := Keccak.hash (Text.Utf8.encode digits)
  '0' :: 'x' :: (halves hash).zipWith raise digits

end Address

inductive AbiValue
  | uint (value : Nat)
  | int (value : Int)
  | bool (value : Bool)
  | address (value : Address)
  | fixedBytes (data : Bytes)
  | bytes (data : Bytes)
  | string (text : String)
  | array (items : List AbiValue)
  | fixedArray (items : List AbiValue)
  | tuple (items : List AbiValue)

namespace AbiValue

def kind : AbiValue → String
  | .uint _ => "uint"
  | .int _ => "int"
  | .bool _ => "bool"
  | .address _ => "address"
  | .fixedBytes _ => "fixed bytes"
  | .bytes _ => "bytes"
  | .string _ => "string"
  | .array _ => "array"
  | .fixedArray _ => "fixed array"
  | .tuple _ => "tuple"

def asUint? : AbiValue → Option Nat
  | .uint value => some value
  | _ => none

def asAddress? : AbiValue → Option Address
  | .address value => some value
  | _ => none

def spellInt (n : Int) : List Char :=
  if n < 0 then '-' :: Text.decimal n.natAbs else Text.decimal n.natAbs

def spellBytes (bytes : Bytes) : List Char :=
  '0' :: 'x' :: Hex.encode bytes

def spellBool : Bool → List Char
  | true => ['t', 'r', 'u', 'e']
  | false => ['f', 'a', 'l', 's', 'e']

mutual
/-- A value as text: a string is quoted, arrays stand in brackets and tuples in parentheses. -/
def spell : AbiValue → List Char
  | .uint value => Text.decimal value
  | .int value => spellInt value
  | .bool value => spellBool value
  | .address value => value.spell
  | .fixedBytes data | .bytes data => spellBytes data
  | .string text => Text.Quoted.encode text.toList
  | .array items | .fixedArray items => '[' :: (spellItems items ++ [']'])
  | .tuple items => '(' :: (spellItems items ++ [')'])

def spellItems : List AbiValue → List Char
  | [] => []
  | item :: items => item.spell ++ spellMore items

def spellMore : List AbiValue → List Char
  | [] => []
  | item :: items => ',' :: ' ' :: (item.spell ++ spellMore items)
end

def display (v : AbiValue) : String :=
  String.ofList v.spell

mutual
/-- A value as JSON: numbers, addresses and bytes are strings, and arrays and tuples are arrays. -/
def toJson : AbiValue → Json
  | .bool value => .bool value
  | .string text => .text text
  | .array items | .fixedArray items | .tuple items => .array (toJsons items)
  | .uint value => .text (String.ofList (Text.decimal value))
  | .int value => .text (String.ofList (spellInt value))
  | .address value => .text (String.ofList value.spell)
  | .fixedBytes data | .bytes data => .text (String.ofList (spellBytes data))

def toJsons : List AbiValue → List Json
  | [] => []
  | item :: items => item.toJson :: toJsons items
end

mutual
def same : AbiValue → AbiValue → Bool
  | .uint a, .uint b => a == b
  | .int a, .int b => a == b
  | .bool a, .bool b => a == b
  | .address a, .address b => a == b
  | .fixedBytes a, .fixedBytes b => a == b
  | .bytes a, .bytes b => a == b
  | .string a, .string b => a == b
  | .array a, .array b => sameItems a b
  | .fixedArray a, .fixedArray b => sameItems a b
  | .tuple a, .tuple b => sameItems a b
  | _, _ => false

def sameItems : List AbiValue → List AbiValue → Bool
  | [], [] => true
  | a :: as, b :: bs => same a b && sameItems as bs
  | _, _ => false
end

mutual
theorem same_iff (a b : AbiValue) : same a b = true ↔ a = b := by
  cases a <;> cases b <;> simp [same]
  all_goals exact sameItems_iff _ _

theorem sameItems_iff (as bs : List AbiValue) : sameItems as bs = true ↔ as = bs := by
  match as, bs with
  | [], [] => simp [sameItems]
  | [], _ :: _ => simp [sameItems]
  | _ :: _, [] => simp [sameItems]
  | a :: as, b :: bs => simp [sameItems, same_iff a b, sameItems_iff as bs]
end

instance : DecidableEq AbiValue :=
  fun a b => decidable_of_iff _ (same_iff a b)

end AbiValue

instance : Coe Nat AbiValue := ⟨.uint⟩
instance : Coe Address AbiValue := ⟨.address⟩
instance : Coe Bool AbiValue := ⟨.bool⟩
instance : Coe String AbiValue := ⟨.string⟩

end EvmInspect.Abi
