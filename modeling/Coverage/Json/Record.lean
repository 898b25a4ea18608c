import Coverage.Json.Value

/-!
Typed readings of JSON values. A record is read by the names of its fields: an
unknown member is skipped, whatever it holds, and a known one may stand only
once. Some records may also be given as an array of their fields in order.
-/
namespace Coverage.Json

def text? : Json → Option String
  | .string spelling => unescape? spelling
  | _ => none

def bool? : Json → Option Bool
  | .bool value => some value
  | _ => none

def word? : Json → Option UInt64
  | .number spelling => (Numeral.read spelling.toList).bind Numeral.toWord?
  | _ => none

def nat? (value : Json) : Option Nat := (word? value).map UInt64.toNat

def float? (read : Numeral.Reading) : Json → Option Float
  | .number spelling => (Numeral.read spelling.toList).bind read
  | _ => none

def list? {α : Type} (read : Json → Option α) : Json → Option (List α)
  | .array items => items.mapM read
  | _ => none

/-- Null stands for the absent value. -/
def optional? {α : Type} (read : Json → Option α) : Json → Option (Option α)
  | .null => some none
  | value => (read value).map some

/-- A counter's key: a whole numeral without sign or leading zero, spelled
without escapes. -/
def keyWord? (spelling : String) : Option UInt64 :=
  (Numeral.read spelling.toList).bind Numeral.toWord?

abbrev Fields := List (String × Json)

/-- The members with their names read; every name has to be text. -/
def named? : Json → Option Fields
  | .object members => members.mapM fun m => (unescape? m.1).map fun name => (name, m.2)
  | _ => none

def isRepeated (names : List String) : Bool := names.eraseDups.length != names.length

/-- The members under the given names. -/
def select? (names : List String) (fields : Fields) : Option Fields :=
  let known := fields.filter fun f => names.contains f.1
  if isRepeated (known.map (·.1)) then none else some known

def objectFields? (names : List String) (value : Json) : Option Fields :=
  (named? value).bind (select? names)

/-- The fields of a record that may also be an array of them. -/
def fields? (names : List String) : Json → Option Fields
  | .array items => if items.length ≤ names.length then some (names.zip items) else none
  | value => objectFields? names value

namespace Fields

def required? {α : Type} (fields : Fields) (name : String) (read : Json → Option α) : Option α :=
  (fields.lookup name).bind read

/-- An absent field takes the given value, a present one has to be readable. -/
def defaulted? {α : Type} (fields : Fields) (name : String) (read : Json → Option α)
    (default : α) : Option α :=
  match fields.lookup name with
  | none => some default
  | some value => read value

end Fields

/-- Containers may nest this deep in a text whose values are kept. -/
def maxDepth : Nat := 127

mutual

/-- The value can be kept for later: its strings are text, its numbers are
words or finite doubles, and its containers nest at most to the given depth. -/
def canBeHeld : Nat → Json → Bool
  | _, .string spelling => (unescape? spelling).isSome
  | _, .number spelling =>
      (Numeral.read spelling.toList).any fun n => n.toWord?.isSome || n.toFloat?.isSome
  | depth, .array items => 0 < depth && itemsCanBeHeld (depth - 1) items
  | depth, .object members => 0 < depth && membersCanBeHeld (depth - 1) members
  | _, _ => true

def itemsCanBeHeld : Nat → List Json → Bool
  | _, [] => true
  | depth, item :: items => canBeHeld depth item && itemsCanBeHeld depth items

def membersCanBeHeld : Nat → List (String × Json) → Bool
  | _, [] => true
  | depth, (name, value) :: members =>
      (unescape? name).isSome && canBeHeld depth value && membersCanBeHeld depth members

end

end Coverage.Json
