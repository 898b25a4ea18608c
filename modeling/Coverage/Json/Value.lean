import Coverage.Number.Numeral
import Coverage.Number.Shortest

/-!
JSON values as syntax trees. Strings and numbers keep their spelling, since a
value that nobody reads only has to be well formed: a string counts as text, and
a number as a word or a double, when it is read as one.
-/
namespace Coverage

inductive Json where
  | null
  | bool (value : Bool)
  | number (spelling : String)
  /-- The characters between the quotes, escapes as they are written. -/
  | string (spelling : String)
  | array (items : List Json)
  | object (members : List (String × Json))
deriving Inhabited

namespace Json

def hexDigit (n : Nat) : Char := (Nat.toDigits 16 n).headD '0'

def escapeChar (c : Char) : List Char :=
  match c with
  | '"' => ['\\', '"']
  | '\\' => ['\\', '\\']
  | '\x08' => ['\\', 'b']
  | '\x0c' => ['\\', 'f']
  | '\n' => ['\\', 'n']
  | '\r' => ['\\', 'r']
  | '\t' => ['\\', 't']
  | c =>
      if c.toNat < 0x20 then ['\\', 'u', '0', '0', hexDigit (c.toNat / 16), hexDigit (c.toNat % 16)]
      else [c]

/-- Quotes, backslashes and control characters are escaped and nothing else is. -/
def escape (text : String) : String := String.ofList (text.toList.flatMap escapeChar)

def hexValue? (c : Char) : Option Nat :=
  if '0' ≤ c ∧ c ≤ '9' then some (c.toNat - '0'.toNat)
  else if 'a' ≤ c ∧ c ≤ 'f' then some (c.toNat - 'a'.toNat + 10)
  else if 'A' ≤ c ∧ c ≤ 'F' then some (c.toNat - 'A'.toNat + 10)
  else none

def unit? (a b c d : Char) : Option Nat := do
  some (((16 * (← hexValue? a) + (← hexValue? b)) * 16 + (← hexValue? c)) * 16 + (← hexValue? d))

/-- What one character after a backslash stands for. -/
def shortEscape? : Char → Option Char
  | '"' => some '"'
  | '\\' => some '\\'
  | '/' => some '/'
  | 'b' => some '\x08'
  | 'f' => some '\x0c'
  | 'n' => some '\n'
  | 'r' => some '\r'
  | 't' => some '\t'
  | _ => none

/-- Every escape is complete and no control character stands bare. Surrogates
need no partner here. -/
def isSpelling : List Char → Bool
  | [] => true
  | '\\' :: 'u' :: a :: b :: c :: d :: rest => (unit? a b c d).isSome && isSpelling rest
  | '\\' :: c :: rest => (shortEscape? c).isSome && isSpelling rest
  | c :: rest => c != '\\' && 0x20 ≤ c.toNat && isSpelling rest

def isHighSurrogate (unit : Nat) : Bool := 0xd800 ≤ unit && unit < 0xdc00

def isLowSurrogate (unit : Nat) : Bool := 0xdc00 ≤ unit && unit < 0xe000

def joinSurrogates (high low : Nat) : Char :=
  Char.ofNat (0x10000 + (high - 0xd800) * 0x400 + (low - 0xdc00))

/-- Reads the escapes, where each surrogate needs its partner; `read` holds what
came before, the last character first. -/
def unescapeFrom (read : List Char) : List Char → Option (List Char)
  | [] => some read.reverse
  | '\\' :: 'u' :: a :: b :: c :: d :: '\\' :: 'u' :: e :: f :: g :: h :: rest =>
      match unit? a b c d with
      | none => none
      | some unit =>
          if isHighSurrogate unit then
            match unit? e f g h with
            | none => none
            | some low =>
                if isLowSurrogate low then unescapeFrom (joinSurrogates unit low :: read) rest
                else none
          else if isLowSurrogate unit then none
          else unescapeFrom (Char.ofNat unit :: read) ('\\' :: 'u' :: e :: f :: g :: h :: rest)
  | '\\' :: 'u' :: a :: b :: c :: d :: rest =>
      match unit? a b c d with
      | none => none
      | some unit =>
          if isHighSurrogate unit || isLowSurrogate unit then none
          else unescapeFrom (Char.ofNat unit :: read) rest
  | '\\' :: c :: rest =>
      match shortEscape? c with
      | none => none
      | some plain => unescapeFrom (plain :: read) rest
  | c :: rest => if c = '\\' then none else unescapeFrom (c :: read) rest

def unescape? (spelling : String) : Option String :=
  (unescapeFrom [] spelling.toList).map String.ofList

def ofText (text : String) : Json := .string (escape text)

def ofNat (n : Nat) : Json := .number (toString n)

def ofWord (n : UInt64) : Json := ofNat n.toNat

/-- A double that is not finite has no numeral and is written as null. -/
def ofFloat (x : Float) : Json := ((Shortest.text? x).map Json.number).getD .null

/-- A member for each name, the names as plain text. -/
def record (members : List (String × Json)) : Json :=
  .object (members.map fun m => (escape m.1, m.2))

end Json

end Coverage
