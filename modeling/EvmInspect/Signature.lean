import EvmInspect.Selector

namespace EvmInspect

/-- A parameter. Its type is kept as it is written. -/
structure Param where
  name : Option String
  type : String
deriving DecidableEq

/-- A function signature, with the text that it was read from. -/
structure Signature where
  name : String
  inputs : List Param
  outputs : List Param
  raw : String
deriving DecidableEq

namespace Signature

def typeList (params : List Param) : String :=
  ",".intercalate (params.map Param.type)

/-- The form that a selector is taken from: the name and the types. -/
def canonicalForm (name : String) (inputs : List Param) : String :=
  name ++ "(" ++ typeList inputs ++ ")"

def canonical (s : Signature) : String :=
  canonicalForm s.name s.inputs

end Signature
end EvmInspect
