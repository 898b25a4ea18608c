import Coverage.Json.Record
import Coverage.Span

/-!
Nodes as JSON. The coordinates of a node and of its parent stand beside their
other fields, so these two are objects only, and what else stands there is held
until the coordinates have been found.
-/
namespace Coverage

open Json (Fields)

namespace Span

def fieldNames : List String := ["start_line", "start_column", "end_line", "end_column"]

def members (s : Span) : List (String × Json) :=
  [("start_line", .ofWord s.startLine), ("start_column", .ofWord s.startColumn),
    ("end_line", .ofWord s.endLine), ("end_column", .ofWord s.endColumn)]

def toJson (s : Span) : Json := .record s.members

def ofFields? (fields : Fields) : Option Span := do
  some
    { startLine := ← fields.required? "start_line" Json.word?
      startColumn := ← fields.required? "start_column" Json.word?
      endLine := ← fields.required? "end_line" Json.word?
      endColumn := ← fields.required? "end_column" Json.word? }

def ofJson? (value : Json) : Option Span := (Json.fields? fieldNames value).bind ofFields?

/-- The span among the fields of an object at the given depth. The members that
the object itself does not know are held until they have been searched for the
coordinates. -/
def ofHeld? (depth : Nat) (named : Fields) (known : List String) : Option Span :=
  let held := named.filter fun f => !known.contains f.1
  if held.all fun f => f.2.canBeHeld (Json.maxDepth - depth) then
    (Json.select? fieldNames held).bind ofFields?
  else none

end Span

namespace Enclosure

def toJson (p : Enclosure) : Json := .record (p.span.members ++ [("label", .ofText p.label)])

def ofJson? (depth : Nat) (value : Json) : Option Enclosure := do
  let named ← Json.named? value
  let own ← Json.select? ["label"] named
  some
    { span := ← Span.ofHeld? depth named ["label"]
      label := ← own.defaulted? "label" Json.text? "" }

end Enclosure

namespace Node

def toJson (n : Node) : Json :=
  .record ([("id", .ofWord n.id)] ++ n.span.members ++
    [("parent", (n.parent.map Enclosure.toJson).getD .null)])

def ofJson? (depth : Nat) (value : Json) : Option Node := do
  let named ← Json.named? value
  let own ← Json.select? ["id", "parent"] named
  some
    { id := ← own.required? "id" Json.word?
      span := ← Span.ofHeld? depth named ["id", "parent"]
      parent := ← own.defaulted? "parent" (Json.optional? (Enclosure.ofJson? (depth + 1))) none }

end Node

end Coverage
