import Coverage.Json.Record
import Coverage.Snapshot

/-!
Snapshots as JSON. All records but those with flattened fields may also be given
as arrays of their fields; the coverage map is keyed by line numbers.
-/
namespace Coverage

namespace Totals

def fieldNames : List String := ["total", "seen", "missing", "percentage"]

def toJson (t : Totals) : Json :=
  .record [("total", .ofNat t.total), ("seen", .ofNat t.seen), ("missing", .ofNat t.missing),
    ("percentage", .ofFloat t.percentage)]

def ofJson? (read : Numeral.Reading) (value : Json) : Option Totals := do
  let fields ← Json.fields? fieldNames value
  some
    { total := ← fields.required? "total" Json.nat?
      seen := ← fields.required? "seen" Json.nat?
      missing := ← fields.required? "missing" Json.nat?
      percentage := ← fields.required? "percentage" (Json.float? read) }

end Totals

namespace MissingLine

def toJson (l : MissingLine) : Json :=
  .record [("lineno", .ofNat l.lineno), ("source", .ofText l.source)]

def ofJson? (value : Json) : Option MissingLine := do
  let fields ← Json.fields? ["lineno", "source"] value
  some
    { lineno := ← fields.required? "lineno" Json.nat?
      source := ← fields.required? "source" Json.text? }

end MissingLine

namespace ColumnRange

def toJson (r : ColumnRange) : Json :=
  .record [("start_column", .ofNat r.start), ("end_column", .ofNat r.stop)]

def ofJson? (value : Json) : Option ColumnRange := do
  let fields ← Json.fields? ["start_column", "end_column"] value
  some
    { start := ← fields.required? "start_column" Json.nat?
      stop := ← fields.required? "end_column" Json.nat? }

end ColumnRange

namespace LineEntry

def toJson (e : LineEntry) : Json :=
  .record [("partial", .bool e.mixed), ("source", .ofText e.source),
    ("missing", .array (e.missing.map ColumnRange.toJson))]

def ofJson? (value : Json) : Option LineEntry := do
  let fields ← Json.fields? ["partial", "source", "missing"] value
  some
    { mixed := ← fields.required? "partial" Json.bool?
      source := ← fields.required? "source" Json.text?
      missing := ← fields.required? "missing" (Json.list? ColumnRange.ofJson?) }

end LineEntry

namespace LineMap

def toJson (m : LineMap) : Json :=
  .record (m.entries.map fun e => (toString e.1, e.2.toJson))

def ofJson? : Json → Option LineMap
  | .object members => do
      let entries ← members.mapM fun (key, entry) => do
        some ((← Json.keyWord? key).toNat, ← LineEntry.ofJson? entry)
      some (.ofList entries)
  | _ => none

end LineMap

namespace Snapshot

def fieldNames : List String :=
  ["percentage", "lines", "missing", "seen", "total", "coverage", "source", "nodes", "blocks"]

def toJson (s : Snapshot) : Json :=
  .record [("percentage", .ofFloat s.percentage),
    ("lines", .array (s.lines.map MissingLine.toJson)), ("missing", .ofNat s.missing),
    ("seen", .ofNat s.seen), ("total", .ofNat s.total), ("coverage", s.coverage.toJson),
    ("source", .ofText s.source), ("nodes", s.nodes.toJson), ("blocks", s.blocks.toJson)]

def ofJson? (read : Numeral.Reading) (value : Json) : Option Snapshot := do
  let fields ← Json.fields? fieldNames value
  some
    { percentage := ← fields.required? "percentage" (Json.float? read)
      lines := ← fields.required? "lines" (Json.list? MissingLine.ofJson?)
      missing := ← fields.required? "missing" Json.nat?
      seen := ← fields.required? "seen" Json.nat?
      total := ← fields.required? "total" Json.nat?
      coverage := ← fields.required? "coverage" LineMap.ofJson?
      source := ← fields.required? "source" Json.text?
      nodes := ← fields.required? "nodes" (Totals.ofJson? read)
      blocks := ← fields.required? "blocks" (Totals.ofJson? read) }

end Snapshot

end Coverage
