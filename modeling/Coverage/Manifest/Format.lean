import Coverage.Json.Record
import Coverage.Manifest

/-!
Block layouts as JSON: the kind beside the fields that belong to it. The kind may
stand anywhere among them, so everything beside it is held until it is known. As
an array the kind comes first.
-/
namespace Coverage.Layout

def toJson : Layout → Json
  | .indexed count => .record [("kind", .ofText "indexed"), ("count", .ofWord count)]
  | .byParent => .record [("kind", .ofText "parent_spans")]

/-- The layout of the given kind; `content` is what stands beside the kind. -/
def ofContent? (kind : String) (content : Json) : Option Layout :=
  if kind = "indexed" then
    ((Json.fields? ["count"] content).bind (·.required? "count" Json.word?)).map Layout.indexed
  else if kind = "parent_spans" then
    match content with
    | .array (_ :: _) => none
    | _ => some .byParent
  else none

def ofJson? (value : Json) : Option Layout :=
  if value.canBeHeld Json.maxDepth then
    match value with
    | .array (kind :: rest) => do ofContent? (← kind.text?) (.array rest)
    | .object members => do
        let tag ← Json.objectFields? ["kind"] value
        let kind ← tag.required? "kind" Json.text?
        let rest ← members.filterM fun m => (Json.unescape? m.1).map (· != "kind")
        ofContent? kind (.object rest)
    | _ => none
  else none

end Coverage.Layout
