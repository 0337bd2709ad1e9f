import EvmInspect.Text.Quoted
import EvmInspect.Text.Numeral

namespace EvmInspect

/-- A JSON document. A string that spells half a surrogate pair, or holds bytes that are no text,
stands for no text at all. -/
inductive Json
  | null
  | bool (value : Bool)
  | number (spelled : String)
  | string (text : Option String)
  | array (items : List Json)
  /-- Members in the order in which they are written. -/
  | object (members : List (Option String × Json))

namespace Json

def text (s : String) : Json :=
  .string (some s)

def nat (n : Nat) : Json :=
  .number (String.ofList (Text.decimal n))

def record (members : List (String × Json)) : Json :=
  .object (members.map fun (key, value) => (some key, value))

def escape (c : Char) : List Char :=
  if c = '"' ∨ c = '\\' then ['\\', c]
  else if c = '\x08' then ['\\', 'b']
  else if c = '\x0c' then ['\\', 'f']
  else if c = '\n' then ['\\', 'n']
  else if c = '\r' then ['\\', 'r']
  else if c = '\t' then ['\\', 't']
  else if c.toNat < 0x10 then ['\\', 'u', '0', '0', '0'] ++ Text.hexDigits c.toNat
  else if c.toNat < 0x20 then ['\\', 'u', '0', '0'] ++ Text.hexDigits c.toNat
  else [c]

/-- A written string. One that stands for no text is half a surrogate pair. -/
def quoted : Option String → List Char
  | some s => '"' :: (s.toList.flatMap escape ++ ['"'])
  | none => ['"', '\\', 'u', 'd', '8', '0', '0', '"']

/-- The line break before something at a level, when the document is spread over lines. -/
def lineBreak (spread : Bool) (level : Nat) : List Char :=
  if spread then '\n' :: List.replicate (2 * level) ' ' else []

def colon (spread : Bool) : List Char :=
  if spread then [':', ' '] else [':']

mutual
def writeAt (spread : Bool) (level : Nat) : Json → List Char
  | .null => ['n', 'u', 'l', 'l']
  | .bool true => ['t', 'r', 'u', 'e']
  | .bool false => ['f', 'a', 'l', 's', 'e']
  | .number spelled => spelled.toList
  | .string text => quoted text
  | .array [] => ['[', ']']
  | .array (item :: items) =>
    '[' :: (lineBreak spread (level + 1) ++ (writeAt spread (level + 1) item ++
      (writeItems spread (level + 1) items ++ (lineBreak spread level ++ [']']))))
  | .object [] => ['\x7b', '\x7d']
  | .object (member :: members) =>
    '\x7b' :: (lineBreak spread (level + 1) ++ (writeMember spread (level + 1) member ++
      (writeMembers spread (level + 1) members ++ (lineBreak spread level ++ ['\x7d']))))

def writeItems (spread : Bool) (level : Nat) : List Json → List Char
  | [] => []
  | item :: items =>
    ',' :: (lineBreak spread level ++ (writeAt spread level item ++ writeItems spread level items))

def writeMember (spread : Bool) (level : Nat) : Option String × Json → List Char
  | (key, value) => quoted key ++ (colon spread ++ writeAt spread level value)

def writeMembers (spread : Bool) (level : Nat) : List (Option String × Json) → List Char
  | [] => []
  | member :: members =>
    ',' :: (lineBreak spread level ++
      (writeMember spread level member ++ writeMembers spread level members))
end

def compact (json : Json) : String :=
  String.ofList (writeAt false 0 json)

def pretty (json : Json) : String :=
  String.ofList (writeAt true 0 json)

end Json
end EvmInspect
