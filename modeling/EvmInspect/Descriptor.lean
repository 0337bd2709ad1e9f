import EvmInspect.Json
import EvmInspect.Registry.WellKnown

namespace EvmInspect

inductive Descriptor
  | parsed (signature : Signature)
  | wellKnown (entry : Entry)
deriving DecidableEq

namespace Descriptor

/-- The descriptor of a text: a well-known function when there is one for it. -/
def ofText (raw : String) : Descriptor :=
  let signature := Signature.ofText raw
  match WellKnown.registry.lookup signature with
  | some entry => .wellKnown entry
  | none => .parsed signature

def name : Descriptor → String
  | .parsed s => s.name
  | .wellKnown e => e.name

def inputs : Descriptor → List Param
  | .parsed s => s.inputs
  | .wellKnown e => e.inputs

def outputs : Descriptor → List Param
  | .parsed s => s.outputs
  | .wellKnown e => e.outputs

def description? : Descriptor → Option String
  | .parsed _ => none
  | .wellKnown e => some e.description

def effects : Descriptor → Effects
  | .parsed _ => .none
  | .wellKnown e => e.effects

def isWellKnown : Descriptor → Bool
  | .parsed _ => false
  | .wellKnown _ => true

def canonical (d : Descriptor) : String :=
  Signature.canonicalForm d.name d.inputs

def selector (d : Descriptor) : Selector :=
  Selector.ofSignature d.canonical

def stateMutability (d : Descriptor) : String :=
  if d.effects = .read then "view" else "nonpayable"

def describeParam (p : Param) : String :=
  match p.name with
  | some name => p.type ++ " " ++ name
  | none => p.type

def describeParams (params : List Param) : String :=
  ", ".intercalate (params.map describeParam)

/-- The signature with names and outputs, and behind slashes what the function does. -/
def describe (d : Descriptor) : String :=
  let outputs := if d.outputs.isEmpty then "" else " returns (" ++ describeParams d.outputs ++ ")"
  let description := match d.description? with
    | some description => " // " ++ description
    | none => ""
  d.name ++ "(" ++ describeParams d.inputs ++ ")" ++ outputs ++ description

def toJson (d : Descriptor) : Json :=
  let params (params : List Param) : Json := .array (params.map fun p =>
    .record [("name", .text (p.name.getD "")), ("type", .text p.type)])
  .record [
    ("type", .text "function"),
    ("name", .text d.name),
    ("inputs", params d.inputs),
    ("outputs", params d.outputs),
    ("stateMutability", .text d.stateMutability)]

end Descriptor
end EvmInspect
