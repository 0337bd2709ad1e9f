import EvmInspect.Json

namespace EvmInspect.Json

def Gap (text : List Char) : Prop :=
  ∀ c ∈ text, c = ' ' ∨ c = '\n' ∨ c = '\t' ∨ c = '\r'

instance (text : List Char) : Decidable (Gap text) :=
  List.decidableBAll (fun c => c = ' ' ∨ c = '\n' ∨ c = '\t' ∨ c = '\r') text

inductive Piece
  | char (c : Char)
  /-- One half of a surrogate pair. -/
  | half (n : Nat)
deriving DecidableEq

def HexDigit (v : Nat) (c : Char) : Prop :=
  v < 16 ∧ (c = Nat.digitChar v ∨ c = (Nat.digitChar v).toUpper)

inductive CodeUnit : Nat → List Char → Prop
  | digits {p q r s : Nat} {a b c d : Char} (ha : HexDigit p a) (hb : HexDigit q b)
      (hc : HexDigit r c) (hd : HexDigit s d) :
      CodeUnit (((p * 16 + q) * 16 + r) * 16 + s) [a, b, c, d]

def shortEscapes : List (Char × Char) := [
  ('"', '"'), ('\\', '\\'), ('/', '/'), ('b', '\x08'), ('f', '\x0c'), ('n', '\n'), ('r', '\r'),
  ('t', '\t')]

/-- The ways of writing a part of a string: a character as it is, escaped by a letter or sign, or
named by its number, and the number of half a surrogate pair. -/
inductive Piece.Written : Piece → List Char → Prop
  | plain {c : Char} (printed : 0x20 ≤ c.toNat) (quote : c ≠ '"') (backslash : c ≠ '\\') :
      Written (.char c) [c]
  | short {mark c : Char} (row : (mark, c) ∈ shortEscapes) : Written (.char c) ['\\', mark]
  | number {c : Char} {digits : List Char} (unit : CodeUnit c.toNat digits) :
      Written (.char c) ('\\' :: 'u' :: digits)
  | half {n : Nat} {digits : List Char} (unit : CodeUnit n digits) (low : 0xd800 ≤ n)
      (high : n < 0xe000) : Written (.half n) ('\\' :: 'u' :: digits)

/-- What a string holds: two halves of a pair are one character, and any other half is none. -/
def Piece.join : List Piece → List (Option Char)
  | [] => []
  | .char c :: pieces => some c :: join pieces
  | .half high :: .half low :: pieces =>
    if high < 0xdc00 ∧ 0xdc00 ≤ low then
      some (Char.ofNat (0x10000 + (high - 0xd800) * 0x400 + (low - 0xdc00))) :: join pieces
    else none :: join (.half low :: pieces)
  | .half _ :: pieces => none :: join pieces

def Piece.text? (pieces : List Piece) : Option String :=
  ((join pieces).mapM id).map String.ofList

inductive Content : List Piece → List Char → Prop
  | nil : Content [] []
  | cons {piece : Piece} {pieces : List Piece} {text rest : List Char} (first : piece.Written text)
      (others : Content pieces rest) : Content (piece :: pieces) (text ++ rest)

def Digits (text : List Char) : Prop :=
  text ≠ [] ∧ ∀ c ∈ text, c.isDigit = true

structure Numeral (sign whole fraction exponent : List Char) : Prop where
  sign : sign = [] ∨ sign = ['-']
  digits : Digits whole
  /-- There is no needless zero in front. -/
  plain : whole = ['0'] ∨ whole.head? ≠ some '0'
  fraction : fraction = [] ∨ ∃ digits, fraction = '.' :: digits ∧ Digits digits
  exponent : exponent = [] ∨ ∃ mark sign digits, exponent = mark :: (sign ++ digits) ∧
    (mark = 'e' ∨ mark = 'E') ∧ (sign = [] ∨ sign = ['+'] ∨ sign = ['-']) ∧ Digits digits

structure Item where
  value : Json
  before : List Char
  text : List Char
  behind : List Char

structure Member where
  before : List Char
  key : List Piece
  name : List Char
  behind : List Char
  item : Item

namespace Item

def written (item : Item) : List Char :=
  item.before ++ (item.text ++ item.behind)

structure Spaced (item : Item) : Prop where
  before : Gap item.before
  behind : Gap item.behind

end Item

namespace Member

def written (member : Member) : List Char :=
  member.before ++ '"' :: (member.name ++ '"' :: (member.behind ++ ':' :: member.item.written))

def entry (member : Member) : Option String × Json :=
  (Piece.text? member.key, member.item.value)

structure Spaced (member : Member) : Prop where
  before : Gap member.before
  behind : Gap member.behind
  item : member.item.Spaced

end Member

/-- The texts that spell a document, from its first sign to its last. -/
inductive Spells : Json → List Char → Prop
  | null : Spells .null ['n', 'u', 'l', 'l']
  | true : Spells (.bool true) ['t', 'r', 'u', 'e']
  | false : Spells (.bool false) ['f', 'a', 'l', 's', 'e']
  | number {sign whole fraction exponent : List Char}
      (numeral : Numeral sign whole fraction exponent) :
      Spells (.number (String.ofList (sign ++ (whole ++ (fraction ++ exponent)))))
        (sign ++ (whole ++ (fraction ++ exponent)))
  | string {pieces : List Piece} {text : List Char} (content : Content pieces text) :
      Spells (.string (Piece.text? pieces)) ('"' :: (text ++ ['"']))
  | emptyArray {gap : List Char} (hgap : Gap gap) : Spells (.array []) ('[' :: (gap ++ [']']))
  | array {items : List Item} (ne : items ≠ []) (spaced : ∀ item ∈ items, item.Spaced)
      (values : ∀ item ∈ items, Spells item.value item.text) :
      Spells (.array (items.map Item.value))
        ('[' :: ([','].intercalate (items.map Item.written) ++ [']']))
  | emptyObject {gap : List Char} (hgap : Gap gap) :
      Spells (.object []) ('\x7b' :: (gap ++ ['\x7d']))
  | object {members : List Member} (ne : members ≠ []) (spaced : ∀ member ∈ members, member.Spaced)
      (keys : ∀ member ∈ members, Content member.key member.name)
      (values : ∀ member ∈ members, Spells member.item.value member.item.text) :
      Spells (.object (members.map Member.entry))
        ('\x7b' :: ([','].intercalate (members.map Member.written) ++ ['\x7d']))

/-- The texts that spell a document, with white space around it. -/
def Document (json : Json) (text : List Char) : Prop :=
  ∃ before core behind, Gap before ∧ Gap behind ∧ Spells json core ∧
    text = before ++ (core ++ behind)

end EvmInspect.Json
