import Coverage.Percent
import Coverage.Snapshot

/-!
The summary table: a row for each file and a footer over all of them. Rows and
footer hold text only; what the footer is computed from is kept beside them and
grows with every file.
-/
namespace Coverage

structure Row where
  label : String
  /-- Percentage, missing and total of the lines, then the same of the blocks. -/
  values : List String
  lines : Float
  blocks : Float

namespace Row

def maxLabelLength : Nat := 60

/-- A name that is too long is cut in front, to an ellipsis and its last
characters. -/
def shorten (name : String) : String :=
  if maxLabelLength < name.length then
    "…" ++ String.ofList (name.toList.drop (name.length - (maxLabelLength - 2)))
  else name

def make (label : String) (lines : Float) (missingLines totalLines : Nat) (blocks : Float)
    (missingBlocks totalBlocks : Nat) : Row where
  label := label
  values :=
    [percentText lines, toString missingLines, toString totalLines,
      percentText blocks, toString missingBlocks, toString totalBlocks]
  lines := lines
  blocks := blocks

def ofSnapshot (filename : String) (s : Snapshot) : Row :=
  make (shorten filename) s.percentage s.missing s.total s.blocks.percentage s.blocks.missing
    s.blocks.total

end Row

/-- Sums over the files of a table. -/
structure Sums where
  seenLines : Nat
  missingLines : Nat
  totalLines : Nat
  seenBlocks : Nat
  missingBlocks : Nat
  totalBlocks : Nat
deriving DecidableEq, Repr

namespace Sums

def zero : Sums := ⟨0, 0, 0, 0, 0, 0⟩

def add (sums : Sums) (s : Snapshot) : Sums where
  seenLines := sums.seenLines + s.seen
  missingLines := sums.missingLines + s.missing
  totalLines := sums.totalLines + s.total
  seenBlocks := sums.seenBlocks + s.blocks.seen
  missingBlocks := sums.missingBlocks + s.blocks.missing
  totalBlocks := sums.totalBlocks + s.blocks.total

/-- Seen lines are summed file by file, as a file may miss more lines than it has. -/
def footer (sums : Sums) (files : Nat) : Row :=
  .make s!"Total ({files} files)" (ratio sums.seenLines sums.totalLines) sums.missingLines
    sums.totalLines (ratio sums.seenBlocks sums.totalBlocks) sums.missingBlocks sums.totalBlocks

end Sums

structure Table where
  headers : List String
  rows : List Row
  footer : Row
  sums : Sums

namespace Table

def standardHeaders : List String :=
  ["File", "Lines", "Missing", "Total", "Blocks", "Missing", "Total"]

def empty : Table := ⟨standardHeaders, [], Sums.zero.footer 0, .zero⟩

def push (t : Table) (filename : String) (s : Snapshot) : Table :=
  let rows := t.rows ++ [.ofSnapshot filename s]
  let sums := t.sums.add s
  { t with rows, sums, footer := sums.footer rows.length }

def pushAll (t : Table) (files : List (String × Snapshot)) : Table :=
  files.foldl (fun t f => t.push f.1 f.2) t

end Table

end Coverage
