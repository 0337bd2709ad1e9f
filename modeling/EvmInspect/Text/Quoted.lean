import EvmInspect.Text.Unprintable

namespace EvmInspect.Text

def hexDigits (n : Nat) : List Char :=
  Nat.toDigits 16 n

namespace Quoted

/-- How a character stands between two `mark`s. The mark and the backslash get a backslash, four
control characters have a letter, and other unprintable characters are named by their numbers. -/
def escape (mark c : Char) : List Char :=
  if c = mark ∨ c = '\\' then ['\\', c]
  else if c = '\x00' then ['\\', '0']
  else if c = '\t' then ['\\', 't']
  else if c = '\n' then ['\\', 'n']
  else if c = '\r' then ['\\', 'r']
  else if isUnprintable c then '\\' :: 'u' :: '\x7b' :: (hexDigits c.toNat ++ ['\x7d'])
  else [c]

def encode (text : List Char) : List Char :=
  '"' :: (text.flatMap (escape '"') ++ ['"'])

end Quoted

def quote (text : String) : String :=
  String.ofList (Quoted.encode text.toList)

end EvmInspect.Text
