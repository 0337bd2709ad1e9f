import EvmInspect.Csv
import EvmInspect.Disassembly
import EvmInspect.Json
import EvmInspect.Text.Lowercase

namespace EvmInspect

inductive Format
  | text
  | json
  | jsonLines
  | csv
deriving DecidableEq

namespace Format

def all : List Format :=
  [.text, .json, .jsonLines, .csv]

def standard : Format :=
  .text

def name : Format → String
  | .text => "text"
  | .json => "json"
  | .jsonLines => "jsonl"
  | .csv => "csv"

def argument : Format → String
  | .text => "text"
  | .json => "json"
  | .jsonLines => "json-lines"
  | .csv => "csv"

def ofName? (name : String) : Option Format :=
  match String.ofList (Text.lowercase name.toList) with
  | "text" | "txt" => some .text
  | "json" => some .json
  | "jsonl" | "jsonlines" => some .jsonLines
  | "csv" => some .csv
  | _ => none

def unknownMessage (name : String) : String :=
  "Unknown output format: " ++ name

/-- The format of an argument, spelled as it stands or in whatever case of ASCII. -/
def ofArgument? (ignoreCase : Bool) (argument : String) : Option Format :=
  all.find? fun format =>
    if ignoreCase then format.argument.toLower == argument.toLower
    else format.argument == argument

/-- The listing, and below it the signatures if there are any. -/
def writeText (d : Disassembly) : String :=
  let found := d.sortedSignatures
  if found.isEmpty then d.listing
  else
    d.listing ++ s!"\n; {found.length} signatures found:\n" ++
      String.join (found.map fun signature => ";   " ++ signature ++ "\n")

def lineMembers (line : Line) : List (String × Json) :=
  let note := match line.note with
    | some (.signatures candidates) => [("signatures", Json.array (candidates.map .text))]
    | some (.text recovered) => [("text", Json.text recovered)]
    | none => []
  [("pc", Json.nat line.pc),
    ("opcode", .text (Instruction.opcodeText line.instruction.opcode)),
    ("mnemonic", .text line.instruction.mnemonic),
    ("args", .array (line.args.map fun arg => .text (Hex.text arg)))] ++ note

def document (d : Disassembly) : Json :=
  .record [
    ("code_len", .nat d.codeLength),
    ("lines", .array (d.lines.map fun line => .record (lineMembers line))),
    ("signatures", .array (d.sortedSignatures.map .text))]

/-- The documents of a disassembly's parts: its lines, and behind them its signatures. -/
def records (d : Disassembly) : List Json :=
  d.lines.map (fun line => .record (("type", .text "line") :: lineMembers line)) ++
    d.sortedSignatures.map fun signature =>
      .record [("type", .text "signature"), ("signature", .text signature)]

def writeJsonLines (d : Disassembly) : String :=
  String.join ((records d).map fun record => record.compact ++ "\n")

def csvHeader : List String :=
  ["pc", "opcode", "mnemonic", "args", "signatures", "text"]

/-- The fields of a line. Candidates are separated by semicolons. -/
def csvFields (line : Line) : List String :=
  let (candidates, recovered) := match line.note with
    | some (.signatures candidates) => (";".intercalate candidates, "")
    | some (.text recovered) => ("", recovered)
    | none => ("", "")
  [toString line.pc, Instruction.opcodeText line.instruction.opcode, line.instruction.mnemonic,
    line.argsText, candidates, recovered]

def writeCsv (d : Disassembly) : String :=
  String.ofList (Csv.write ((csvHeader :: d.lines.map csvFields).map (·.map String.toList)))

def write : Format → Disassembly → String
  | .text, d => writeText d
  | .json, d => (document d).pretty
  | .jsonLines, d => writeJsonLines d
  | .csv, d => writeCsv d

end Format
end EvmInspect
