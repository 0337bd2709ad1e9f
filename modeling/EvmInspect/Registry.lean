import EvmInspect.Effect
import EvmInspect.Signature.Grammar
import EvmInspect.Text.Lowercase

namespace EvmInspect

structure Entry where
  key : String
  name : String
  description : String
  inputs : List Param
  outputs : List Param
  effects : Effects
deriving DecidableEq

namespace Entry

def canonical (e : Entry) : String :=
  Signature.canonicalForm e.name e.inputs

def selector (e : Entry) : Selector :=
  Selector.ofSignature e.canonical

def isCanonical (e : Entry) : Bool :=
  e.key == e.canonical

end Entry

inductive RegistryError
  | duplicateKey (key : String)
  /-- A key is neither canonical nor one of the annotated ones. -/
  | signatureMismatch (key canonical : String)
deriving DecidableEq

def RegistryError.message : RegistryError → String
  | .duplicateKey key => "Duplicate function description: " ++ key
  | .signatureMismatch key canonical =>
    "Signature mismatch: key " ++ key ++ " != canonical " ++ canonical

/-- Entries by key, and those under canonical keys by selector. -/
structure Registry where
  /-- The entries, in the order in which they came. -/
  entries : List Entry := []
  /-- The entries that a selector leads to, the latest first. -/
  index : List (Selector × Entry) := []

namespace Registry

/-- The keys that need not be canonical: they tell the transfer of an amount from that of a single
token. -/
def annotatedKeys : List String := [
  "transfer(address to, uint256 tokenID)",
  "transfer(address to, uint256 value)",
  "transfer(address to, uint256 amount)"]

def find? (r : Registry) (key : String) : Option Entry :=
  r.entries.find? fun e => e.key == key

/-- One entry more. A key that is taken is noticed first. -/
def insert (r : Registry) (e : Entry) : Except RegistryError Registry :=
  if (r.find? e.key).isSome then .error (.duplicateKey e.key)
  else if e.isCanonical then .ok ⟨r.entries ++ [e], (e.selector, e) :: r.index⟩
  else if annotatedKeys.contains e.key then .ok { r with entries := r.entries ++ [e] }
  else .error (.signatureMismatch e.key e.canonical)

/-- The registry of some entries; the first one at fault spoils it. -/
def ofEntries (entries : List Entry) : Except RegistryError Registry :=
  entries.foldlM insert {}

def size (r : Registry) : Nat :=
  r.entries.length

def isEmpty (r : Registry) : Bool :=
  r.entries.isEmpty

def get? (r : Registry) (key : String) : Option Entry :=
  r.find? (String.ofList (Text.trim key.toList))

def bySelector? (r : Registry) (s : Selector) : Option Entry :=
  r.index.lookup s

/-- The entries of a name, in whatever case of ASCII, in the order of their keys. -/
def byName (r : Registry) (name : String) : List Entry :=
  (r.entries.filter fun e => e.name.toLower == name.toLower).mergeSort
    fun a b => decide (a.key ≤ b.key)

/-- The keys under which a signature may stand, in the order in which they are tried: as it was
written, its canonical form, both of them with blanks collapsed, and its name in lower case. -/
def candidateKeys (s : Signature) : List String :=
  let collapse (text : String) := String.ofList (Text.collapse text.toList)
  [s.raw, s.canonical, collapse s.canonical, collapse s.raw,
    String.ofList (Text.lowercase s.name.toList)]

def lookup (r : Registry) (s : Signature) : Option Entry :=
  (candidateKeys s).findSome? r.get?

end Registry
end EvmInspect
