import EvmInspect.Json.Reader
import EvmInspect.Text.Utf8

namespace EvmInspect

namespace Json

inductive Lookup
  | absent
  | once (value : Json)
  | repeated

def lookup (name : String) (members : List (Option String × Json)) : Lookup :=
  match members.filter fun member => member.1 == some name with
  | [] => .absent
  | [member] => .once member.2
  | _ => .repeated

def keysAreText (members : List (Option String × Json)) : Bool :=
  members.all (·.1.isSome)

/-- The text that a document is, when it is a string that stands for one. -/
def asText? : Json → Option String
  | .string text => text
  | _ => none

end Json

namespace Directory

def recordSignature? : Json → Option String
  | .object members =>
    if Json.keysAreText members then
      match Json.lookup "text_signature" members with
      | .once value => value.asText?
      | _ => none
    else none
  | .array [value] => value.asText?
  | _ => none

def recordSignatures? : Json → Option (List String)
  | .array records => records.mapM recordSignature?
  | _ => none

/-- The signatures of a whole answer. One without results has no signatures. -/
def answerSignatures? : Json → Option (List String)
  | .object members =>
    if Json.keysAreText members then
      match Json.lookup "results" members with
      | .absent => some []
      | .once value => recordSignatures? value
      | .repeated => none
    else none
  | .array [] => some []
  | .array [value] => recordSignatures? value
  | _ => none

inductive BodyFault
  /-- There is nothing in the body. The position is that of its end. -/
  | blank (line column : Nat)
  | malformed
deriving DecidableEq

def BodyFault.message : BodyFault → String
  | .blank line column => s!"EOF while parsing a value at line {line} column {column}"
  | .malformed => "not a listing of signatures"

/-- The position of the end of some bytes: lines count from one, columns from zero. -/
def endPosition (bytes : Bytes) : Nat × Nat :=
  (bytes.count 0x0a + 1, (bytes.reverse.takeWhile (· != 0x0a)).length)

/-- The signatures that a body lists, in its order. One bad record spoils the whole body. -/
def signatures (body : Bytes) : Except BodyFault (List String) :=
  let glyphs := Text.Utf8.decodeWithGaps body
  match Json.Reader.read? glyphs >>= answerSignatures? with
  | some found => .ok found
  | none =>
    if (Json.Reader.skipSpace glyphs).isEmpty then
      let (line, column) := endPosition body
      .error (.blank line column)
    else .error .malformed

end Directory
end EvmInspect
