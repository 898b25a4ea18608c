import Coverage.Json.Token

/-!
Reading a JSON text: one value and nothing behind it. The bound counts the
tokens, of which every step takes at least one, so it never runs out.
-/
namespace Coverage.Json

mutual

def readValue : Nat → List Token → Option (Json × List Token)
  | _ + 1, .scalar value :: rest => some (value, rest)
  | _ + 1, .beginArray :: .endArray :: rest => some (.array [], rest)
  | bound + 1, .beginArray :: rest =>
      (readItems bound rest).map fun (items, rest) => (.array items, rest)
  | _ + 1, .beginObject :: .endObject :: rest => some (.object [], rest)
  | bound + 1, .beginObject :: rest =>
      (readMembers bound rest).map fun (members, rest) => (.object members, rest)
  | _, _ => none

/-- One item or more, and the end of the array. -/
def readItems : Nat → List Token → Option (List Json × List Token)
  | 0, _ => none
  | bound + 1, tokens =>
      match readValue bound tokens with
      | some (item, .comma :: rest) =>
          (readItems bound rest).map fun (items, rest) => (item :: items, rest)
      | some (item, .endArray :: rest) => some ([item], rest)
      | _ => none

/-- One member or more, and the end of the object. -/
def readMembers : Nat → List Token → Option (List (String × Json) × List Token)
  | bound + 1, .scalar (.string name) :: .colon :: tokens =>
      match readValue bound tokens with
      | some (value, .comma :: rest) =>
          (readMembers bound rest).map fun (members, rest) => ((name, value) :: members, rest)
      | some (value, .endObject :: rest) => some ([(name, value)], rest)
      | _ => none
  | _, _ => none

end

def ofTokens? (tokens : List Token) : Option Json :=
  match readValue (tokens.length + 1) tokens with
  | some (value, []) => some value
  | _ => none

def ofText? (text : String) : Option Json := (Token.ofText? text).bind ofTokens?

end Coverage.Json
