import EvmInspect.Directory.Body
import EvmInspect.Format
import EvmInspect.Text.Cut

namespace EvmInspect

namespace Json

def optional? (name : String) : Json → Option (Option Json)
  | .object members =>
    match lookup name members with
    | .absent => some none
    | .once value => some (some value)
    | .repeated => none
  | _ => none

def field? (name : String) (json : Json) : Option Json :=
  (json.optional? name).join

def asNat? : Json → Option Nat
  | .number spelled => Text.ofDigits? spelled.toList
  | _ => none

def asList? {α : Type} (item? : Json → Option α) : Json → Option (List α)
  | .array items => items.mapM item?
  | _ => none

def asBytes? (json : Json) : Option Bytes := do
  let digits ← json.asText?
  (Hex.decodeText digits.toList).toOption

def asOpcode? (json : Json) : Option UInt8 := do
  let shown ← json.asText?
  let digits ← Text.dropStart? ['0', 'x'] shown.toList
  match Hex.decodeText digits with
  | .ok [opcode] => some opcode
  | _ => none

end Json

namespace Format

structure Entry where
  pc : Nat
  opcode : UInt8
  mnemonic : String
  args : List Bytes
  note : Option Annotation
deriving DecidableEq

/-- What JSON says of a disassembly to somebody who knows the names of the members and nothing
else. -/
structure Report where
  codeLength : Nat
  entries : List Entry
  signatures : List String
deriving DecidableEq

def Entry.ofLine (line : Line) : Entry :=
  ⟨line.pc, line.instruction.opcode, line.instruction.mnemonic, line.args, line.note⟩

/-- The annotation of a line, which has signatures, a text or neither. -/
def readNote? (json : Json) : Option (Option Annotation) := do
  let candidates ← json.optional? "signatures"
  let recovered ← json.optional? "text"
  match candidates, recovered with
  | none, none => some none
  | some candidates, none =>
    (candidates.asList? Json.asText?).map fun found => some (.signatures found)
  | none, some recovered => recovered.asText?.map fun text => some (.text text)
  | some _, some _ => none

def readLine? (json : Json) : Option Entry := do
  let pc ← json.field? "pc" >>= Json.asNat?
  let opcode ← json.field? "opcode" >>= Json.asOpcode?
  let mnemonic ← json.field? "mnemonic" >>= Json.asText?
  let args ← json.field? "args" >>= Json.asList? Json.asBytes?
  let note ← readNote? json
  some ⟨pc, opcode, mnemonic, args, note⟩

def readReport? (json : Json) : Option Report := do
  let codeLength ← json.field? "code_len" >>= Json.asNat?
  let entries ← json.field? "lines" >>= Json.asList? readLine?
  let signatures ← json.field? "signatures" >>= Json.asList? Json.asText?
  some ⟨codeLength, entries, signatures⟩

end Format
end EvmInspect
