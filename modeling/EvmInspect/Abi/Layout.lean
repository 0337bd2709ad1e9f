import EvmInspect.Abi.Value
import EvmInspect.Proofs.Types
import Mathlib.Tactic

namespace EvmInspect.Abi.Layout

/-- The types whose values take as many bytes as the value asks for. -/
inductive Dynamic : AbiType → Prop
  | bytes : Dynamic .bytes
  | string : Dynamic .string
  | array {element : AbiType} : Dynamic (.array element)
  | fixedArray {element : AbiType} {length : Nat} :
    Dynamic element → Dynamic (.fixedArray element length)
  | tuple {members : List AbiType} {member : AbiType} :
    member ∈ members → Dynamic member → Dynamic (.tuple members)

/-- The program calls the same types dynamic. -/
theorem dynamic_iff {t : AbiType} : Dynamic t ↔ t.isDynamic = true := by
  induction t with
  | bytes => exact ⟨fun _ => rfl, fun _ => .bytes⟩
  | string => exact ⟨fun _ => rfl, fun _ => .string⟩
  | array element => exact ⟨fun _ => rfl, fun _ => .array⟩
  | fixedArray element length ih =>
    rw [AbiType.isDynamic, ← ih]
    constructor
    · intro h
      cases h with
      | fixedArray h => exact h
    · exact .fixedArray
  | tuple members ih =>
    rw [AbiType.isDynamic, anyDynamic_eq_any, List.any_eq_true]
    constructor
    · intro h
      cases h with
      | tuple hm h => exact ⟨_, hm, (ih _ hm).mp h⟩
    · rintro ⟨m, hm, h⟩
      exact .tuple hm ((ih m hm).mpr h)
  | _ =>
    constructor
    · intro h
      cases h
    · intro h
      cases h

instance (t : AbiType) : Decidable (Dynamic t) :=
  decidable_of_iff (t.isDynamic = true) dynamic_iff.symm

theorem decide_dynamic (t : AbiType) : decide (Dynamic t) = t.isDynamic := by
  rw [Bool.eq_iff_iff, decide_eq_true_iff, dynamic_iff]

/-- The 32 bytes of a number, the highest first. -/
def word (n : Nat) : Bytes :=
  (List.range 32).map fun i => UInt8.ofNat (n / 256 ^ (31 - i) % 256)

@[simp] theorem length_word (n : Nat) : (word n).length = 32 := by
  simp [word]

/-- A value in a sequence: its own layout, and whether that is the tail. Otherwise it is the head,
and there is no tail. -/
structure Slot where
  inTail : Bool
  bytes : Bytes

def Slot.tail (slot : Slot) : Bytes :=
  if slot.inTail then slot.bytes else []

def Slot.headLength (slot : Slot) : Nat :=
  if slot.inTail then 32 else slot.bytes.length

/-- The number of bytes before the tail of the slot with a number: all heads, and the tails of the
slots before it. -/
def before (slots : List Slot) (n : Nat) : Nat :=
  (slots.map Slot.headLength).sum + ((slots.take n).flatMap Slot.tail).length

/-- The head of the slot with a number. If the value is the tail, it tells how many bytes of the
sequence come before that. -/
def head (slots : List Slot) (n : Nat) (slot : Slot) : Bytes :=
  if slot.inTail then word (before slots n) else slot.bytes

/-- All heads and behind them all tails. -/
def sequence (slots : List Slot) : Bytes :=
  (slots.mapIdx fun n slot => head slots n slot).flatten ++ slots.flatMap Slot.tail

/-- Bytes with zeros behind them up to a multiple of a word. -/
def padded (bytes : Bytes) : Bytes :=
  bytes ++ List.replicate ((bytes.length + 31) / 32 * 32 - bytes.length) 0

def counted (bytes : Bytes) : Bytes :=
  word bytes.length ++ padded bytes

mutual
/-- The layout of a value of a type. -/
def value : AbiType → AbiValue → Bytes
  | .uint _, .uint n => word n
  | .int _, .int n => word (n % 2 ^ 256).toNat
  | .bool, .bool b => word (if b then 1 else 0)
  | .address, .address a => List.replicate (32 - a.bytes.length) 0 ++ a.bytes
  | .fixedBytes _, .fixedBytes data => padded data
  | .bytes, .bytes data => counted data
  | .string, .string text => counted (text.toList.flatMap String.utf8EncodeChar)
  | .array element, .array items =>
    word items.length ++
      sequence (items.map fun item => ⟨Dynamic element, value element item⟩)
  | .fixedArray element _, .fixedArray items =>
    sequence (items.map fun item => ⟨Dynamic element, value element item⟩)
  | .tuple members, .tuple items => sequence (slots members items)
  | _, _ => []

def slots : List AbiType → List AbiValue → List Slot
  | t :: types, v :: values => ⟨Dynamic t, value t v⟩ :: slots types values
  | _, _ => []
end

def arguments (types : List AbiType) (values : List AbiValue) : Bytes :=
  sequence (slots types values)

end EvmInspect.Abi.Layout
