import Coverage.Json.Printer
import Coverage.Json.Reader
import Coverage.Json.Record
import Coverage.Table

/-!
Tables as JSON. The sums behind the footer are not stored: a table that is read
back starts them at zero and keeps its rows and footer until the next file.
-/
namespace Coverage

namespace Row

def toJson (r : Row) : Json :=
  .record [("label", .ofText r.label), ("values", .array (r.values.map Json.ofText)),
    ("line_percentage", .ofFloat r.lines), ("block_percentage", .ofFloat r.blocks)]

def ofJson? (read : Numeral.Reading) (value : Json) : Option Row := do
  let fields ←
    Json.fields? ["label", "values", "line_percentage", "block_percentage"] value
  some
    { label := ← fields.required? "label" Json.text?
      values := ← fields.required? "values" (Json.list? Json.text?)
      lines := ← fields.required? "line_percentage" (Json.float? read)
      blocks := ← fields.required? "block_percentage" (Json.float? read) }

end Row

namespace Table

def toJson (t : Table) : Json :=
  .record [("headers", .array (t.headers.map Json.ofText)),
    ("rows", .array (t.rows.map Row.toJson)), ("footer", t.footer.toJson)]

def ofJson? (read : Numeral.Reading) (value : Json) : Option Table := do
  let fields ← Json.fields? ["headers", "rows", "footer"] value
  some
    { headers := ← fields.required? "headers" (Json.list? Json.text?)
      rows := ← fields.required? "rows" (Json.list? (Row.ofJson? read))
      footer := ← fields.required? "footer" (Row.ofJson? read)
      sums := .zero }

/-- The table is written as JSON, and the text is read. -/
def reload (read : Numeral.Reading) (t : Table) : Option Table :=
  (Json.ofText? t.toJson.compact).bind (ofJson? read)

end Table

end Coverage
