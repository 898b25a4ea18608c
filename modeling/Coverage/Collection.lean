import Coverage.Discovery
import Coverage.Dump.Load
import Coverage.Report

/-!
From roots to reports: the dumps below the roots are loaded into a run, and the
run's files are named, ordered and reported. A file that cannot be read fails
the report as a whole.
-/
namespace Coverage

inductive SortOrder where
  | filename
  | coverage
deriving DecidableEq, Repr, Inhabited

/-- Letter case does not matter; as with report kinds only ASCII counts. -/
def SortOrder.ofName? (name : String) : Option SortOrder :=
  match name.toLower with
  | "filename" | "name" | "path" => some filename
  | "coverage" | "percentage" => some coverage
  | _ => none

structure Options where
  filter : Filter
  kind : ReportKind
  /-- What file names are shown relative to. -/
  base : Option Path
  order : SortOrder
deriving Inhabited

def Options.standard : Options := ⟨.all, .table, none, .filename⟩

/-- Loads a dump into the run, unless its source file is ignored. -/
def Workspace.loadInto (w : Workspace) (f : Filter) (r : Run) (dump : Path) :
    Except Failure Run := do
  let s ← w.load dump
  .ok (if f.isIgnored w.directoryPath s.filename then r else r.register s)

def Workspace.collect (w : Workspace) (f : Filter) (roots : List Path) : Except Failure Run := do
  let dumps ← w.discoverAll f roots
  dumps.foldlM (w.loadInto f) .empty

namespace SortOrder

/-- Percentages compare in the total order of doubles, then names decide. -/
def compareFiles : SortOrder → String × Snapshot → String × Snapshot → Ordering
  | filename => compareOn (·.1)
  | coverage =>
      compareLex (compareOn fun f => Binary64.rank f.2.percentage.toBits) (compareOn (·.1))

def le (o : SortOrder) (a b : String × Snapshot) : Bool := (o.compareFiles a b).isLE

end SortOrder

namespace Run

/-- Every file under the name it is shown by, in the order of the options; files
that the order does not tell apart stay in path order. -/
def files (r : Run) (w : Workspace) (o : Options) : Except Failure (List (String × Snapshot)) := do
  let snapshots ← r.snapshots w
  .ok ((snapshots.map fun f => (f.1.displayed o.base, f.2)).mergeSort o.order.le)

def table (r : Run) (w : Workspace) (o : Options) : Except Failure Table := do
  .ok (Table.empty.pushAll (← r.files w o))

def report (r : Run) (w : Workspace) (o : Options) : Except Failure String := do
  .ok ((Report.start o.kind).addAll (← r.files w o)).finish.1

end Run

end Coverage
