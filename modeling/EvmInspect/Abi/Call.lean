import EvmInspect.Abi.Encode
import EvmInspect.Descriptor

namespace EvmInspect.Abi

def paramTypes (params : List Param) : Except AbiError (List AbiType) :=
  params.mapM fun p => AbiType.ofText p.type

/-- The arguments in call data. With `strip`, a selector of the function in front is passed over;
anything else in front is taken for arguments. -/
def decodeArguments (d : Descriptor) (data : Bytes) (strip : Bool) :
    Except AbiError (List AbiValue) := do
  let types ← paramTypes d.inputs
  let hasSelector := strip && data.take 4 == d.selector.toBytes
  decode types (if hasSelector then data.drop 4 else data)

def decodeOutputs (d : Descriptor) (data : Bytes) : Except AbiError (List AbiValue) := do
  decode (← paramTypes d.outputs) data

def encodeArguments (d : Descriptor) (values : List AbiValue) : Except AbiError Bytes := do
  encode (← paramTypes d.inputs) values

def encodeCall (d : Descriptor) (values : List AbiValue) : Except AbiError Bytes := do
  let arguments ← encodeArguments d values
  .ok (d.selector.toBytes ++ arguments)

end EvmInspect.Abi
