import EvmInspect.Directory.Body
import EvmInspect.Selector

namespace EvmInspect.Directory

structure Config where
  endpoint : String := "https://www.4byte.directory/api/v1/signatures/"
  /-- How long a request may take, in milliseconds. -/
  timeout : Nat := 5000
  userAgent : String := "evmlens/0.1.0"
deriving DecidableEq

inductive ConfigError
  | unreadable (fault : Text.Utf8.Fault)
  | malformed
deriving DecidableEq

namespace Config

/-- The number of milliseconds that a document is: digits alone, and a size. -/
def milliseconds? : Json → Option Nat
  | .number spelled => Text.ofDigits? spelled.toList >>= Size.fit?
  | _ => none

/-- A setting that a document gives for a key, or the one that stands without it. -/
def setting? (read : Json → Option α) (default : α) : Json.Lookup → Option α
  | .absent => some default
  | .once value => read value
  | .repeated => none

def itemAt (items : List Json) (n : Nat) : Json.Lookup :=
  match items[n]? with
  | some item => .once item
  | none => .absent

/-- The settings that a document gives, with the defaults for those it leaves out. An array gives
the endpoint, the timeout and the user agent, in this order. -/
def ofJson? (json : Json) : Option Config := do
  let standard : Config := {}
  let (endpoint, timeout, userAgent) ← match json with
    | .object members =>
      if Json.keysAreText members then
        some (Json.lookup "endpoint" members, Json.lookup "timeout_ms" members,
          Json.lookup "user_agent" members)
      else none
    | .array items =>
      if items.length ≤ 3 then some (itemAt items 0, itemAt items 1, itemAt items 2) else none
    | _ => none
  let endpoint ← setting? Json.asText? standard.endpoint endpoint
  let timeout ← setting? milliseconds? standard.timeout timeout
  let userAgent ← setting? Json.asText? standard.userAgent userAgent
  pure ⟨endpoint, timeout, userAgent⟩

def ofBytes (content : Bytes) : Except ConfigError Config :=
  match Text.Utf8.decode content with
  | .error fault => .error (.unreadable fault)
  | .ok text =>
    match Json.Reader.read? (text.map some) >>= ofJson? with
    | some config => .ok config
    | none => .error .malformed

def timeoutSeconds (config : Config) : Nat :=
  config.timeout / 1000

def timeoutRest (config : Config) : Nat :=
  config.timeout % 1000

def queryUrl (config : Config) (s : Selector) : String :=
  config.endpoint ++ "?hex_signature=0x" ++ s.hex

def display (config : Config) : String :=
  "ResolverConfig \x7b endpoint: " ++ Text.quote config.endpoint ++
    ", timeout_ms: " ++ toString config.timeout ++
    ", user_agent: " ++ Text.quote config.userAgent ++ " \x7d"

def directoryDisplay (config : Config) : String :=
  "SignatureDirectory \x7b config: " ++ config.display ++ " \x7d"

end Config
end EvmInspect.Directory
