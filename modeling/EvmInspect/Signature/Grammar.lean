import EvmInspect.Signature
import EvmInspect.Text.Blank
import EvmInspect.Text.Brackets
import EvmInspect.Text.Cut

namespace EvmInspect

/-- A parameter: its type up to the first space, and its name behind that. -/
def Param.read (text : List Char) : Param :=
  match Text.around? ' ' text with
  | none => ⟨none, String.ofList text⟩
  | some (type, name) =>
    let name := Text.trim name
    ⟨if name = [] then none else some (String.ofList name), String.ofList type⟩

/-- The parameters of a list. Parts that are blank are passed over. -/
def Param.readList (body : List Char) : List Param :=
  (((Text.splitTopLevel body).map Text.trim).filter (· ≠ [])).map Param.read

namespace Signature

def readOutputs (text : List Char) : List Param :=
  match Text.after? ['r', 'e', 't', 'u', 'r', 'n', 's'] text with
  | none => []
  | some clause =>
    match Text.around? '(' clause with
    | none => []
    | some (_, list) => Param.readList (Text.listBody list).1

/-- The signature that a text spells. Every text spells one: without parentheses it is a name, and a
list that is not closed runs to the end. -/
def read (raw : List Char) : Signature :=
  let text := Text.trim raw
  match Text.around? '(' text with
  | none => ⟨String.ofList text, [], [], String.ofList raw⟩
  | some (name, list) =>
    let (body, rest) := Text.listBody list
    ⟨String.ofList (Text.trim name), Param.readList body, readOutputs rest, String.ofList raw⟩

def ofText (raw : String) : Signature :=
  read raw.toList

end Signature
end EvmInspect
