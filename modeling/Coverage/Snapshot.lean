import Coverage.LineMap
import Coverage.Reach
import Coverage.Text

/-!
A snapshot of one file's coverage: which lines miss something and where, beside
the totals of lines, nodes and blocks. A line counts as missing as soon as one
missing node starts on it.
-/
namespace Coverage

structure MissingLine where
  lineno : Nat
  source : String
deriving DecidableEq, Repr

structure Snapshot where
  percentage : Float
  lines : List MissingLine
  missing : Nat
  seen : Nat
  total : Nat
  coverage : LineMap
  source : String
  nodes : Totals
  blocks : Totals

/-- Line feeds separate lines and nothing else does, so a final line feed gives
an empty last line. -/
def splitLines (text : String) : List String := Text.splitOn '\n' text

/-- The lines on which the nodes start, in ascending order, each once: the nodes
sorted by their start lines, and of each line the first that stands there. -/
def startLines (nodes : List Node) (lines : List String) : List MissingLine :=
  let sorted := nodes.mergeSort fun n k => n.span.startLine ≤ k.span.startLine
  (sorted.map (·.span.startLine.toNat)).eraseDups.map fun line =>
    ⟨line + 1, (lines[line]?).getD ""⟩

/-- `lines` is the text of the file as it is now, `source` the text that was
instrumented. -/
def Snapshot.ofLines (m : Manifest) (r : Recorder) (lines : List String) (source : String) :
    Snapshot :=
  let missing := m.missing r
  let missingLines := startLines missing lines
  let seenLines := lines.length - missingLines.length
  { percentage := ratio seenLines lines.length
    lines := missingLines
    missing := missingLines.length
    seen := seenLines
    total := lines.length
    coverage := .ofNodes missing (m.seen r) lines
    source := source
    nodes := m.nodeTotals r
    blocks := m.blockTotals r }

end Coverage
