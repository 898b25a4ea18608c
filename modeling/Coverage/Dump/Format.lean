import Coverage.Dump
import Coverage.Json.Printer
import Coverage.Json.Reader
import Coverage.Span.Format

/-!
Dumps as JSON. A dump is an object or an array of its fields; the counts are
keyed by decimal numbers, and the number of blocks is left out where there is
none.
-/
namespace Coverage

namespace Visits

def toJson (v : Visits) : Json :=
  .record (v.entries.map fun e => (toString e.1, .ofWord e.2))

/-- Of equal keys the last one counts. -/
def ofJson? : Json → Option Visits
  | .object members => do
      let entries ← members.mapM fun (key, count) => do
        some (← Json.keyWord? key, ← count.word?)
      some (.ofList entries)
  | _ => none

end Visits

namespace Dump

def fieldNames : List String :=
  ["filename", "source", "nodes", "block_count", "node_visits", "block_visits"]

/-- The dump under the text of its file name. -/
def toJson (d : Dump) (filename : String) : Json :=
  .record ([("filename", .ofText filename),
      ("source", (d.source.map Json.ofText).getD .null),
      ("nodes", .array (d.nodes.map Node.toJson))] ++
    (d.blockCount.map fun count => ("block_count", Json.ofWord count)).toList ++
    [("node_visits", d.nodeVisits.toJson), ("block_visits", d.blockVisits.toJson)])

def ofJson? (value : Json) : Option Dump := do
  let fields ← Json.fields? fieldNames value
  some
    { filename := .ofText (← fields.required? "filename" Json.text?)
      source := ← fields.defaulted? "source" (Json.optional? Json.text?) none
      nodes := ← fields.required? "nodes" (Json.list? (Node.ofJson? 3))
      blockCount := ← fields.defaulted? "block_count" (Json.optional? Json.word?) none
      nodeVisits := ← fields.defaulted? "node_visits" Visits.ofJson? .empty
      blockVisits := ← fields.defaulted? "block_visits" Visits.ofJson? .empty }

/-- A dump whose file name is no text cannot be written. -/
def text (d : Dump) : Except Failure String :=
  match d.filename.text? with
  | some filename => .ok (d.toJson filename).pretty
  | none => .error .filenameNotText

/-- The dump that the text of a file holds. -/
def ofText (text : String) (origin : Path) : Except Failure Dump :=
  match (Json.ofText? text).bind ofJson? with
  | some dump => .ok dump
  | none => .error (.malformedDump origin text)

end Dump

end Coverage
