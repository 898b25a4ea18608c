import Coverage.Fragment
import Coverage.OrderedMap

/-!
Missing columns line by line. The locations of the missing nodes, and of the
fragments of those that span several lines, are sorted by line, start column and
end column. What lies on one line is then taken in this order, and of the
locations that start in one column of a line only the first, which is the
narrowest. A line is keyed by its number counted from one.
-/
namespace Coverage

structure ColumnRange where
  start : Nat
  stop : Nat
deriving DecidableEq, Repr

structure LineEntry where
  /-- Some node that starts on the line was reached. -/
  mixed : Bool
  source : String
  missing : List ColumnRange
deriving DecidableEq, Repr

abbrev LineMap := OrderedMap Nat LineEntry

/-- Where something is missing: a node as a whole, or a fragment of one. -/
structure Location where
  startLine : Nat
  startColumn : Nat
  endLine : Nat
  endColumn : Nat
deriving DecidableEq, Repr

def Span.location (s : Span) : Location :=
  ⟨s.startLine.toNat, s.startColumn.toNat, s.endLine.toNat, s.endColumn.toNat⟩

def Fragment.location (f : Fragment) : Location := ⟨f.line, f.start, f.line, f.stop⟩

namespace Location

def isMultiLine (l : Location) : Bool := l.startLine < l.endLine

/-- The line on which a location ends does not count, so different locations tie. -/
def order : Location → Location → Ordering :=
  compareLex (compareOn startLine) (compareLex (compareOn startColumn) (compareOn endColumn))

def le (l k : Location) : Bool := (order l k).isLE

end Location

namespace LineMap

def locations (missing : List Node) (lines : List String) : List Location :=
  missing.map (·.span.location) ++ (explodeAll missing lines).map (·.location)

/-- The columns from which a range was taken, under their lines, and the map so far. -/
structure Pass where
  kept : OrderedMap Nat (List Nat)
  coverage : LineMap

def Pass.start : Pass := ⟨.empty, .empty⟩

/-- A line without any range yet. -/
def unmarked (seenLines : List Nat) (lines : List String) (line : Nat) : LineEntry where
  mixed := seenLines.contains line
  source := (lines[line]?).getD ""
  missing := []

/-- Adds the range to its line, which comes into being with the first one, unless
another range was taken from the same column. -/
def Pass.take (seenLines : List Nat) (lines : List String) (p : Pass) (l : Location) : Pass :=
  let columns := (p.kept.find? l.startLine).getD []
  if l.startColumn ∈ columns then p
  else
    { kept := p.kept.insert l.startLine (l.startColumn :: columns)
      coverage := p.coverage.alter (l.startLine + 1) fun held =>
        let entry := held.getD (unmarked seenLines lines l.startLine)
        { entry with missing := entry.missing ++ [⟨l.startColumn, l.endColumn⟩] } }

def ofNodes (missing seen : List Node) (lines : List String) : LineMap :=
  let seenLines := seen.map (·.span.startLine.toNat)
  let sorted := (locations missing lines).mergeSort Location.le
  let pass := (sorted.filter fun l => !l.isMultiLine).foldl (Pass.take seenLines lines) .start
  pass.coverage

end LineMap

end Coverage
