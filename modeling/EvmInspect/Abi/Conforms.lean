import EvmInspect.Abi.Type
import EvmInspect.Abi.Value
import Mathlib.Tactic

namespace EvmInspect.Abi

mutual
def AbiType.admits : AbiType → AbiValue → Bool
  | .uint bits, .uint n => n < 2 ^ bits
  | .int bits, .int n => -(2 ^ (bits - 1)) ≤ n && n < 2 ^ (bits - 1)
  | .bool, .bool _ => true
  | .address, .address _ => true
  | .fixedBytes size, .fixedBytes data => data.length == size
  | .bytes, .bytes _ => true
  | .string, .string _ => true
  | .array element, .array items => items.all fun item => element.admits item
  | .fixedArray element length, .fixedArray items =>
    items.length == length && items.all fun item => element.admits item
  | .tuple members, .tuple items => admitAll members items
  | _, _ => false

def admitAll : List AbiType → List AbiValue → Bool
  | [], [] => true
  | t :: types, value :: values => t.admits value && admitAll types values
  | _, _ => false
end

section
variable {v : AbiValue}

-- a value of a type has the form that the type asks for
attribute [local simp] AbiType.admits

theorem admits_uint_iff {bits : Nat} :
    (AbiType.uint bits).admits v = true ↔ ∃ n, v = .uint n ∧ n < 2 ^ bits := by
  cases v <;> simp

theorem admits_int_iff {bits : Nat} : (AbiType.int bits).admits v = true ↔
    ∃ n, v = .int n ∧ -(2 ^ (bits - 1)) ≤ n ∧ n < 2 ^ (bits - 1) := by
  cases v <;> simp

theorem admits_bool_iff : AbiType.bool.admits v = true ↔ ∃ b, v = .bool b := by
  cases v <;> simp

theorem admits_address_iff : AbiType.address.admits v = true ↔ ∃ a, v = .address a := by
  cases v <;> simp

theorem admits_fixedBytes_iff {size : Nat} : (AbiType.fixedBytes size).admits v = true ↔
    ∃ data, v = .fixedBytes data ∧ data.length = size := by
  cases v <;> simp

theorem admits_bytes_iff : AbiType.bytes.admits v = true ↔ ∃ data, v = .bytes data := by
  cases v <;> simp

theorem admits_string_iff : AbiType.string.admits v = true ↔ ∃ text, v = .string text := by
  cases v <;> simp

theorem admits_array_iff {element : AbiType} : (AbiType.array element).admits v = true ↔
    ∃ items, v = .array items ∧ (items.all fun item => element.admits item) = true := by
  cases v <;> simp

theorem admits_fixedArray_iff {element : AbiType} {length : Nat} :
    (AbiType.fixedArray element length).admits v = true ↔ ∃ items, v = .fixedArray items ∧
      items.length = length ∧ (items.all fun item => element.admits item) = true := by
  cases v <;> simp

theorem admits_tuple_iff {members : List AbiType} : (AbiType.tuple members).admits v = true ↔
    ∃ items, v = .tuple items ∧ admitAll members items = true := by
  cases v <;> simp

end

theorem length_of_admitAll {types : List AbiType} {values : List AbiValue}
    (h : admitAll types values) : values.length = types.length := by
  induction types generalizing values with
  | nil =>
    cases values with
    | nil => rfl
    | cons v vs => simp [admitAll] at h
  | cons t ts ih =>
    cases values with
    | nil => simp [admitAll] at h
    | cons v vs =>
      simp only [admitAll, Bool.and_eq_true] at h
      simp [ih h.2]

mutual
/-- The numbers, booleans, addresses, byte strings and strings in a value. -/
def AbiValue.leaves : AbiValue → Nat
  | .array items | .fixedArray items | .tuple items => leavesOf items
  | _ => 1

def leavesOf : List AbiValue → Nat
  | [] => 0
  | item :: items => item.leaves + leavesOf items
end

end EvmInspect.Abi
