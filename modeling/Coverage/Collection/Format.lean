import Coverage.Collection
import Coverage.Json.Record

/-!
Report kinds and sort orders as JSON: by a name, which may also be given as the
only member of an object, over null.
-/
namespace Coverage

/-- A choice without content, by its name. -/
def Json.choice? {α : Type} (choose : String → Option α) : Json → Option α
  | .object [(name, .null)] => (unescape? name).bind choose
  | value => value.text?.bind choose

namespace ReportKind

def toJson : ReportKind → Json
  | table => .ofText "Cli"
  | json => .ofText "Json"
  | plain => .ofText "Plain"

def ofJson? : Json → Option ReportKind :=
  Json.choice? fun
    | "Cli" => some table
    | "Json" => some json
    | "Plain" => some plain
    | _ => none

end ReportKind

namespace SortOrder

def toJson : SortOrder → Json
  | filename => .ofText "Filename"
  | coverage => .ofText "Coverage"

def ofJson? : Json → Option SortOrder :=
  Json.choice? fun
    | "Filename" => some filename
    | "Coverage" => some coverage
    | _ => none

end SortOrder

end Coverage
