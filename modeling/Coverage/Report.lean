import Coverage.Json.Printer
import Coverage.Snapshot.Format
import Coverage.Table.Layout

/-!
Reports. A report is fed one file at a time and can be finished at any point: the
table and the JSON list keep what they were given, the plain listing starts anew.
-/
namespace Coverage

inductive ReportKind where
  | table
  | json
  | plain
deriving DecidableEq, Repr, Inhabited

namespace ReportKind

def name : ReportKind → String
  | table => "cli"
  | json => "json"
  | plain => "plain"

/-- Letter case does not matter. The names are ASCII, and no other character
becomes ASCII in lower case but the Kelvin sign, whose letter none of them has. -/
def ofName? (name : String) : Option ReportKind :=
  match name.toLower with
  | "cli" | "table" => some table
  | "json" => some json
  | "plain" | "text" => some plain
  | _ => none

end ReportKind

/-- The plain listing of one file: a summary, and every line that misses
something with marks below its missing columns. -/
structure Listing where
  filename : String
  snapshot : Snapshot

namespace Listing

def summary (l : Listing) : String :=
  let s := l.snapshot
  s!"{l.filename}: {percentText s.percentage} lines ({s.missing} of {s.total} missing), " ++
    s!"{percentText s.blocks.percentage} blocks ({s.blocks.missing} of {s.blocks.total} missing)"

/-- The last line number is the widest. -/
def gutter (l : Listing) : Nat :=
  ((l.snapshot.coverage.keys.getLast?).map fun lineno => (toString lineno).length).getD 1

/-- Marks one more range behind those already marked; even an empty range gets a
mark. -/
def mark (marks : List Char) (r : ColumnRange) : List Char :=
  let start := max r.start marks.length
  let stop := max r.stop (start + 1)
  marks ++ List.replicate (start - marks.length) ' ' ++ List.replicate (stop - start) '^'

def marks (ranges : List ColumnRange) : String := String.ofList (ranges.foldl mark [])

def sourceLine (gutter lineno : Nat) (e : LineEntry) : String :=
  (if e.mixed then "~ " else "! ") ++ Text.padLeft gutter (toString lineno) ++ " | " ++ e.source

def markLine (gutter : Nat) (e : LineEntry) : String :=
  "  " ++ Text.spaces gutter ++ " | " ++ marks e.missing

def lines (l : Listing) : List String :=
  l.summary ::
    (l.snapshot.coverage.entries.flatMap fun e =>
      [sourceLine l.gutter e.1 e.2, markLine l.gutter e.2]) ++ [""]

def text (l : Listing) : String := String.join (l.lines.map (· ++ "\n"))

end Listing

/-- One file of the JSON list. -/
def fileJson (file : String × Snapshot) : Json :=
  .record [("filename", .ofText file.1), ("stats", file.2.toJson),
    ("source", .ofText file.2.source)]

inductive Report where
  | table (table : Table)
  | json (files : List (String × Snapshot))
  | plain (text : String)

namespace Report

def start : ReportKind → Report
  | .table => table .empty
  | .json => json []
  | .plain => plain ""

def kind : Report → ReportKind
  | table _ => .table
  | json _ => .json
  | plain _ => .plain

def add (r : Report) (filename : String) (s : Snapshot) : Report :=
  match r with
  | table t => table (t.push filename s)
  | json files => json (files ++ [(filename, s)])
  | plain text => plain (text ++ (Listing.mk filename s).text)

def addAll (r : Report) (files : List (String × Snapshot)) : Report :=
  files.foldl (fun r f => r.add f.1 f.2) r

/-- The text of the report and what is left of it. -/
def finish (r : Report) : String × Report :=
  match r with
  | table t => (t.render, r)
  | json files => ((Json.array (files.map fileJson)).pretty ++ "\n", r)
  | plain text => (text, plain "")

end Report

end Coverage
