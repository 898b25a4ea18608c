import Coverage.Span

/-!
Fragments: the column intervals that a span occupies line by line. A span of
several lines is cut into one fragment a line: the first runs from the start
column to the end of its line, the last from the line's start to the end
column, and those between cover their lines whole.
-/
namespace Coverage

structure Fragment where
  line : Nat
  start : Nat
  stop : Nat
deriving DecidableEq, Repr

/-- The length of a line in characters; past the end of the source it is zero. -/
def lineLength (lines : List String) (line : Nat) : Nat :=
  ((lines[line]?).map (·.length)).getD 0

namespace Span

/-- The fragment of the span on one of its lines. -/
def fragmentOn (s : Span) (lines : List String) (line : Nat) : Fragment where
  line := line
  start := if line = s.startLine.toNat then s.startColumn.toNat else 0
  stop := if line = s.endLine.toNat then s.endColumn.toNat else lineLength lines line

/-- The fragments of a span of several lines; none for any other. -/
def explode (s : Span) (lines : List String) : List Fragment :=
  if s.isMultiLine then
    (List.range' s.startLine.toNat (s.endLine.toNat - s.startLine.toNat + 1)).map
      (s.fragmentOn lines)
  else
    []

end Span

def explodeAll (nodes : List Node) (lines : List String) : List Fragment :=
  nodes.flatMap fun n => n.span.explode lines

end Coverage
