import EvmInspect.Hex
import EvmInspect.Keccak

namespace EvmInspect

structure Selector where
  (a b c d : UInt8)
deriving DecidableEq

namespace Selector

def toBytes (s : Selector) : Bytes :=
  [s.a, s.b, s.c, s.d]

def ofBytes? : Bytes → Option Selector
  | [a, b, c, d] => some ⟨a, b, c, d⟩
  | _ => none

def hex (s : Selector) : String :=
  Hex.text s.toBytes

/-- The first four bytes of the hash of a signature. -/
def ofSignature (signature : String) : Selector :=
  match Keccak.hash (Text.Utf8.encode signature.toList) with
  | a :: b :: c :: d :: _ => ⟨a, b, c, d⟩
  | _ => ⟨0, 0, 0, 0⟩

@[simp] theorem ofBytes?_toBytes (s : Selector) : ofBytes? s.toBytes = some s := rfl

theorem toBytes_of_ofBytes? {bytes : Bytes} {s : Selector} (h : ofBytes? bytes = some s) :
    s.toBytes = bytes := by
  unfold ofBytes? at h
  split at h
  · obtain rfl := Option.some.inj h
    rfl
  · simp at h

end Selector
end EvmInspect
