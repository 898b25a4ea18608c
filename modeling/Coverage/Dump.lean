import Coverage.Run

/-!
Dumps: one file's manifest together with its visit counts, as they are stored. A
session is written as a dump and a dump is replayed into a session; a relative
file name is then taken from the directory that holds the dump.
-/
namespace Coverage

abbrev Visits := OrderedMap UInt64 UInt64

structure Dump where
  filename : Path
  source : Option String
  nodes : List Node
  /-- The number of blocks, where block indices were handed out beforehand. -/
  blockCount : Option UInt64
  nodeVisits : Visits
  blockVisits : Visits
deriving DecidableEq

namespace Dump

def layout (d : Dump) : Layout :=
  match d.blockCount with
  | some count => .indexed count
  | none => .byParent

/-- Visits of unknown ids are left out, those of unknown blocks are kept. -/
def ofSession (s : Session) : Dump where
  filename := s.filename
  source := some s.source
  nodes := s.manifest.nodes
  blockCount :=
    match s.manifest.layout with
    | .indexed count => some count
    | .byParent => none
  nodeVisits := .ofList (s.seen.map fun n => (n.id, s.recorder.nodes.count n.id))
  blockVisits := s.recorder.blocks.counts

def events (d : Dump) : List Event :=
  d.nodeVisits.entries.map (fun e => .recordNode e.1 e.2) ++
    d.blockVisits.entries.map (fun e => .recordBlock e.1 e.2)

def filenameIn (d : Dump) (base : Path) : Path :=
  if d.filename.isAbsolute then d.filename else base.join d.filename

def replay (d : Dump) (base : Path) : Except Failure Session :=
  match Manifest.ofNodes d.nodes d.layout with
  | .error id => .error (.repeatedId id)
  | .ok manifest =>
      .ok ((Session.start (d.filenameIn base) manifest (d.source.getD "")).observeAll d.events)

end Dump

end Coverage
