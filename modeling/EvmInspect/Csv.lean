namespace EvmInspect.Csv

/-- Whether a field has to stand in quotes. -/
def needsQuotes (field : List Char) : Bool :=
  field.any fun c => c == ',' || c == '"' || c == '\r' || c == '\n'

def escape (c : Char) : List Char :=
  if c = '"' then ['"', '"'] else [c]

def writeField (field : List Char) : List Char :=
  if needsQuotes field then '"' :: (field.flatMap escape ++ ['"']) else field

def writeFields : List (List Char) → List Char
  | [] => []
  | [field] => writeField field
  | field :: fields => writeField field ++ ',' :: writeFields fields

def writeRecord (fields : List (List Char)) : List Char :=
  writeFields fields ++ ['\n']

def write (records : List (List (List Char))) : List Char :=
  records.flatMap writeRecord

inductive Place
  | record
  | field
  | bare
  | quoted
  /-- Behind a quote within quotes: it closes the field, or is the first of a doubled quote. -/
  | closed
deriving DecidableEq

/-- A reader at work: its place, and in reverse the field, the record and the records so far. -/
structure Reader where
  place : Place := .record
  field : List Char := []
  fields : List (List Char) := []
  records : List (List (List Char)) := []

namespace Reader

def endField (r : Reader) : Reader :=
  { r with place := .field, field := [], fields := r.field.reverse :: r.fields }

def endRecord (r : Reader) : Reader :=
  { place := .record, records := (r.field.reverse :: r.fields).reverse :: r.records }

def take (r : Reader) (place : Place) (c : Char) : Reader :=
  { r with place := place, field := c :: r.field }

def isLineEnd (c : Char) : Bool :=
  c == '\r' || c == '\n'

def takeOutside (r : Reader) (c : Char) : Reader :=
  if c = ',' then r.endField
  else if isLineEnd c then r.endRecord
  else r.take .bare c

def step (r : Reader) (c : Char) : Reader :=
  match r.place with
  | .record =>
    if isLineEnd c then r
    else if c = '"' then { r with place := .quoted }
    else r.takeOutside c
  | .field => if c = '"' then { r with place := .quoted } else r.takeOutside c
  | .bare => r.takeOutside c
  | .quoted => if c = '"' then { r with place := .closed } else r.take .quoted c
  | .closed => if c = '"' then r.take .quoted c else r.takeOutside c

def finish (r : Reader) : List (List (List Char)) :=
  match r.place with
  | .record => r.records.reverse
  | _ => r.endRecord.records.reverse

end Reader

def read (input : List Char) : List (List (List Char)) :=
  (input.foldl Reader.step {}).finish

end EvmInspect.Csv
