import EvmInspect.Text.Quoted
import EvmInspect.Text.Utf8

namespace EvmInspect.Hex

def digit (n : UInt8) : Char :=
  Char.ofNat (if n < 10 then n.toNat + 0x30 else n.toNat + 0x57)

def pair (b : UInt8) : List Char :=
  [digit (b / 16), digit (b % 16)]

def encode (bytes : Bytes) : List Char :=
  bytes.flatMap pair

def text (bytes : Bytes) : String :=
  String.ofList (encode bytes)

def value? (b : UInt8) : Option UInt8 :=
  if 0x30 ≤ b ∧ b ≤ 0x39 then some (b - 0x30)
  else if 0x61 ≤ b ∧ b ≤ 0x66 then some (b - 0x57)
  else if 0x41 ≤ b ∧ b ≤ 0x46 then some (b - 0x37)
  else none

inductive Fault
  | oddLength
  /-- The first byte that is no digit, and where it stands. -/
  | badDigit (byte : UInt8) (index : Nat)
deriving DecidableEq

/-- A byte that is no digit is shown as the character of its number. -/
def Fault.message : Fault → String
  | .oddLength => "Odd number of digits"
  | .badDigit byte index =>
    let shown := String.ofList (Text.Quoted.escape '\'' (Char.ofNat byte.toNat))
    s!"Invalid character '{shown}' at position {index}"

def badDigit? (index : Nat) : Bytes → Option Fault
  | [] => none
  | b :: rest => if (value? b).isNone then some (.badDigit b index) else badDigit? (index + 1) rest

/-- The bytes of the digits, two at a time. -/
def join : Bytes → Bytes
  | high :: low :: rest => ((value? high).getD 0 * 16 + (value? low).getD 0) :: join rest
  | _ => []

/-- The bytes that an ASCII text of digits denotes. A missing digit is noticed first. -/
def decode (digits : Bytes) : Except Fault Bytes :=
  if digits.length % 2 = 1 then .error .oddLength
  else match badDigit? 0 digits with
    | some fault => .error fault
    | none => .ok (join digits)

def decodeText (text : List Char) : Except Fault Bytes :=
  decode (Text.Utf8.encode text)

def digitByte (n : UInt8) : UInt8 :=
  if n < 10 then n + 0x30 else n + 0x57

theorem utf8_digit {n : UInt8} (h : n < 16) : String.utf8EncodeChar (digit n) = [digitByte n] := by
  have all : ∀ m : Fin 16,
      String.utf8EncodeChar (digit (UInt8.ofNat m)) = [digitByte (UInt8.ofNat m)] := by decide
  have hn := all ⟨n.toNat, by simpa [UInt8.lt_iff_toNat_lt] using h⟩
  simpa using hn

theorem value?_digitByte {n : UInt8} (h : n < 16) : value? (digitByte n) = some n := by
  have all : ∀ m : Fin 16, value? (digitByte (UInt8.ofNat m)) = some (UInt8.ofNat m) := by decide
  have hn := all ⟨n.toNat, by simpa [UInt8.lt_iff_toNat_lt] using h⟩
  simpa using hn

theorem high_lt (b : UInt8) : b / 16 < 16 := by
  have := b.toNat_lt
  simp only [UInt8.lt_iff_toNat_lt, UInt8.toNat_div, UInt8.reduceToNat]
  omega

theorem low_lt (b : UInt8) : b % 16 < 16 := by
  have := b.toNat_lt
  simp only [UInt8.lt_iff_toNat_lt, UInt8.toNat_mod, UInt8.reduceToNat]
  omega

theorem high_low (b : UInt8) : b / 16 * 16 + b % 16 = b := by
  have := b.toNat_lt
  apply UInt8.toNat_inj.mp
  simp only [UInt8.toNat_add, UInt8.toNat_mul, UInt8.toNat_div, UInt8.toNat_mod, UInt8.reduceToNat]
  omega

def digitBytes (bytes : Bytes) : Bytes :=
  bytes.flatMap fun b => [digitByte (b / 16), digitByte (b % 16)]

theorem digitBytes_cons (b : UInt8) (bytes : Bytes) :
    digitBytes (b :: bytes) = digitByte (b / 16) :: digitByte (b % 16) :: digitBytes bytes := rfl

theorem utf8_encode (bytes : Bytes) : Text.Utf8.encode (encode bytes) = digitBytes bytes := by
  induction bytes with
  | nil => rfl
  | cons b bytes ih =>
    simp only [Text.Utf8.encode, encode] at ih
    simp only [Text.Utf8.encode, encode, List.flatMap_cons, List.flatMap_append, ih]
    simp [pair, utf8_digit (high_lt b), utf8_digit (low_lt b), digitBytes_cons]

theorem length_digitBytes (bytes : Bytes) : (digitBytes bytes).length = 2 * bytes.length := by
  induction bytes with
  | nil => rfl
  | cons b bytes ih =>
    simp only [digitBytes_cons, List.length_cons, ih]
    omega

theorem badDigit?_digitBytes (bytes : Bytes) (n : Nat) : badDigit? n (digitBytes bytes) = none := by
  induction bytes generalizing n with
  | nil => rfl
  | cons b bytes ih =>
    simp [digitBytes_cons, badDigit?, value?_digitByte (high_lt b), value?_digitByte (low_lt b), ih]

theorem join_digitBytes (bytes : Bytes) : join (digitBytes bytes) = bytes := by
  induction bytes with
  | nil => rfl
  | cons b bytes ih =>
    simp [digitBytes_cons, join, value?_digitByte (high_lt b), value?_digitByte (low_lt b), ih,
      high_low]

/-- Written bytes are read back. -/
theorem decodeText_encode (bytes : Bytes) : decodeText (encode bytes) = .ok bytes := by
  unfold decodeText decode
  rw [utf8_encode, length_digitBytes, if_neg (by omega), badDigit?_digitBytes, join_digitBytes]

end EvmInspect.Hex
