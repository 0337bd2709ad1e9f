import EvmInspect.Hex

namespace EvmInspect

structure Instruction where
  opcode : UInt8
  mnemonic : String
  /-- How many bytes after the opcode belong to the instruction. -/
  immediateLength : Nat
  isDefined : Bool
deriving DecidableEq

namespace Instruction

def undefinedMnemonic : String := "UNDEFINED"

def push1 : UInt8 := 0x60

def push4 : UInt8 := 0x63

def push32 : UInt8 := 0x7f

/-- The mnemonics of the opcodes that are not numbered within a family. -/
def plain? : UInt8 → Option String
  | 0x00 => "STOP" | 0x01 => "ADD" | 0x02 => "MUL" | 0x03 => "SUB" | 0x04 => "DIV"
  | 0x05 => "SDIV" | 0x06 => "MOD" | 0x07 => "SMOD" | 0x08 => "ADDMOD" | 0x09 => "MULMOD"
  | 0x0a => "EXP" | 0x0b => "SIGNEXTEND"
  | 0x10 => "LT" | 0x11 => "GT" | 0x12 => "SLT" | 0x13 => "SGT" | 0x14 => "EQ"
  | 0x15 => "ISZERO" | 0x16 => "AND" | 0x17 => "OR" | 0x18 => "XOR" | 0x19 => "NOT"
  | 0x1a => "BYTE" | 0x1b => "SHL" | 0x1c => "SHR" | 0x1d => "SAR"
  | 0x20 => "KECCAK256"
  | 0x30 => "ADDRESS" | 0x31 => "BALANCE" | 0x32 => "ORIGIN" | 0x33 => "CALLER"
  | 0x34 => "CALLVALUE" | 0x35 => "CALLDATALOAD" | 0x36 => "CALLDATASIZE"
  | 0x37 => "CALLDATACOPY" | 0x38 => "CODESIZE" | 0x39 => "CODECOPY" | 0x3a => "GASPRICE"
  | 0x3b => "EXTCODESIZE" | 0x3c => "EXTCODECOPY" | 0x3d => "RETURNDATASIZE"
  | 0x3e => "RETURNDATACOPY" | 0x3f => "EXTCODEHASH"
  | 0x40 => "BLOCKHASH" | 0x41 => "COINBASE" | 0x42 => "TIMESTAMP" | 0x43 => "NUMBER"
  | 0x44 => "PREVRANDAO" | 0x45 => "GASLIMIT" | 0x46 => "CHAINID" | 0x47 => "SELFBALANCE"
  | 0x48 => "BASEFEE" | 0x49 => "BLOBHASH" | 0x4a => "BLOBBASEFEE"
  | 0x50 => "POP" | 0x51 => "MLOAD" | 0x52 => "MSTORE" | 0x53 => "MSTORE8" | 0x54 => "SLOAD"
  | 0x55 => "SSTORE" | 0x56 => "JUMP" | 0x57 => "JUMPI" | 0x58 => "PC" | 0x59 => "MSIZE"
  | 0x5a => "GAS" | 0x5b => "JUMPDEST" | 0x5c => "TLOAD" | 0x5d => "TSTORE" | 0x5e => "MCOPY"
  | 0x5f => "PUSH0"
  | 0xf0 => "CREATE" | 0xf1 => "CALL" | 0xf2 => "CALLCODE" | 0xf3 => "RETURN"
  | 0xf4 => "DELEGATECALL" | 0xf5 => "CREATE2" | 0xfa => "STATICCALL" | 0xfd => "REVERT"
  | 0xfe => "INVALID" | 0xff => "SELFDESTRUCT"
  | _ => none

/-- The families of numbered opcodes: the first and the last opcode, the name, the number of the
first, and whether the number is also the length of the immediate. -/
structure Family where
  first : UInt8
  last : UInt8
  name : String
  start : Nat
  pushes : Bool

def families : List Family := [
  ⟨push1, push32, "PUSH", 1, true⟩, ⟨0x80, 0x8f, "DUP", 1, false⟩,
  ⟨0x90, 0x9f, "SWAP", 1, false⟩, ⟨0xa0, 0xa4, "LOG", 0, false⟩]

def Family.number (family : Family) (opcode : UInt8) : Nat :=
  opcode.toNat - family.first.toNat + family.start

/-- The instruction of an opcode byte in the Cancun set. A byte without a meaning stands for an
undefined instruction of a single byte. -/
def ofOpcode (opcode : UInt8) : Instruction :=
  match families.find? fun family => family.first ≤ opcode && opcode ≤ family.last with
  | some family =>
    let number := family.number opcode
    ⟨opcode, family.name ++ toString number, if family.pushes then number else 0, true⟩
  | none => match plain? opcode with
    | some mnemonic => ⟨opcode, mnemonic, 0, true⟩
    | none => ⟨opcode, undefinedMnemonic, 0, false⟩

def table : List Instruction :=
  (List.range 256).map fun n => ofOpcode (UInt8.ofNat n)

/-- Whether the instruction is one of the pushes, the push of zero included. -/
def isPush (i : Instruction) : Bool :=
  i.isDefined && 0x5f ≤ i.opcode && i.opcode ≤ push32

def size (i : Instruction) : Nat :=
  1 + i.immediateLength

def opcodeText (opcode : UInt8) : String :=
  "0x" ++ Hex.text [opcode]

/-- The mnemonic; an undefined instruction also shows its opcode. -/
def display (i : Instruction) : String :=
  if i.isDefined then i.mnemonic else i.mnemonic ++ "(" ++ opcodeText i.opcode ++ ")"

end Instruction
end EvmInspect
