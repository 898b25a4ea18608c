import Coverage.Json.Value

/-!
The tokens of a JSON text: six marks and the scalars. An unquoted scalar is the
longest run of characters without a blank, a mark or a quote, and has to be a
numeral or one of three words.
-/
namespace Coverage.Json

inductive Token where
  | beginArray
  | endArray
  | beginObject
  | endObject
  | comma
  | colon
  | scalar (value : Json)

namespace Token

def isBlank (c : Char) : Bool := c == ' ' || c == '\n' || c == '\r' || c == '\t'

def mark? : Char → Option Token
  | '[' => some .beginArray
  | ']' => some .endArray
  | '\x7b' => some .beginObject
  | '\x7d' => some .endObject
  | ',' => some .comma
  | ':' => some .colon
  | _ => none

def unquoted? (spelling : String) : Option Token :=
  if spelling = "null" then some (.scalar .null)
  else if spelling = "true" then some (.scalar (.bool true))
  else if spelling = "false" then some (.scalar (.bool false))
  else (Numeral.read spelling.toList).map fun _ => .scalar (.number spelling)

def quoted? (spelling : List Char) : Option Token :=
  if isSpelling spelling then some (.scalar (.string (String.ofList spelling))) else none

/-- Where in the text a scan stands; a scalar that has begun holds its
characters, the last one first. -/
inductive Place where
  | between
  | unquoted (taken : List Char)
  | quoted (taken : List Char)
  | afterBackslash (taken : List Char)

/-- Reads a character that belongs to no scalar yet. -/
def start (done : List Token) (c : Char) : Place × List Token :=
  if isBlank c then (.between, done)
  else if c = '"' then (.quoted [], done)
  else
    match mark? c with
    | some token => (.between, token :: done)
    | none => (.unquoted [c], done)

def endsUnquoted (c : Char) : Bool := isBlank c || c == '"' || (mark? c).isSome

def scan (place : Place) (done : List Token) : List Char → Option (List Token)
  | [] =>
      match place with
      | .between => some done.reverse
      | .unquoted taken => do
          let token ← unquoted? (String.ofList taken.reverse)
          some (token :: done).reverse
      | _ => none
  | c :: rest =>
      match place with
      | .between =>
          let (place, done) := start done c
          scan place done rest
      | .unquoted taken =>
          if endsUnquoted c then
            match unquoted? (String.ofList taken.reverse) with
            | none => none
            | some token =>
                let (place, done) := start (token :: done) c
                scan place done rest
          else scan (.unquoted (c :: taken)) done rest
      | .quoted taken =>
          if c = '"' then
            match quoted? taken.reverse with
            | none => none
            | some token => scan .between (token :: done) rest
          else if c = '\\' then scan (.afterBackslash (c :: taken)) done rest
          else scan (.quoted (c :: taken)) done rest
      | .afterBackslash taken => scan (.quoted (c :: taken)) done rest

def ofText? (text : String) : Option (List Token) := scan .between [] text.toList

end Token

end Coverage.Json
