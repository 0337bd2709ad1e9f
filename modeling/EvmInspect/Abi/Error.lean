import EvmInspect.Abi.Type
import EvmInspect.Text.Quoted
import EvmInspect.Text.Utf8

namespace EvmInspect.Abi

/-- Why encoding or decoding fails. Offsets count from the start of the sequence being read. -/
inductive AbiError
  /-- The text is no supported type, or its head is no size. -/
  | unsupportedType (spelled : String)
  | emptyData (expected : Nat)
  | outOfBounds (offset length : Nat)
  | invalidOffset (offset : Nat)
  | invalidBool (offset : Nat)
  | dirtyPadding (type : AbiType) (offset : Nat)
  | valueOutOfRange (type : AbiType)
  | invalidUtf8 (fault : Text.Utf8.Fault)
  | typeMismatch (type : AbiType) (found : String)
  | arityMismatch (expected found : Nat)

def AbiError.message : AbiError → String
  | .unsupportedType spelled => "Unsupported parameter type: " ++ Text.quote spelled
  | .emptyData expected => s!"Call data is empty but {expected} arguments are expected"
  | .outOfBounds offset length =>
    s!"Read at offset {offset} is out of bounds (data length {length})"
  | .invalidOffset offset => s!"Invalid offset or length word at {offset}"
  | .invalidBool offset => s!"Invalid boolean encoding at {offset}"
  | .dirtyPadding type offset => s!"Non-zero padding for {type.display} at {offset}"
  | .valueOutOfRange type => s!"Value does not fit {type.display}"
  | .invalidUtf8 fault => s!"Invalid UTF-8 in string payload: {fault.message}"
  | .typeMismatch type found => s!"Type mismatch: expected {type.display}, found {found}"
  | .arityMismatch expected found => s!"Expected {expected} values, found {found}"

end EvmInspect.Abi
