import Coverage.Failure
import Coverage.Snapshot

/-!
The coverage of one file while it is recorded: its name, its manifest, what was
visited, and the text that was instrumented.
-/
namespace Coverage

structure Session where
  filename : Path
  manifest : Manifest
  recorder : Recorder
  source : String
deriving DecidableEq

namespace Session

def start (filename : Path) (manifest : Manifest) (source : String) : Session :=
  { filename, manifest, recorder := .empty, source }

def observe (s : Session) (e : Event) : Session := { s with recorder := s.recorder.observe e }

def observeAll (s : Session) (events : List Event) : Session := events.foldl observe s

/-- Events move the recorder and nothing else. -/
theorem observeAll_eq (s : Session) (events : List Event) :
    s.observeAll events = { s with recorder := s.recorder.observeAll events } := by
  induction events generalizing s with
  | nil => rfl
  | cons e rest ih => exact ih (s.observe e)

def missing (s : Session) : List Node := s.manifest.missing s.recorder

def seen (s : Session) : List Node := s.manifest.seen s.recorder

def nodeTotals (s : Session) : Totals := s.manifest.nodeTotals s.recorder

def blockTotals (s : Session) : Totals := s.manifest.blockTotals s.recorder

/-- The snapshot against a text of the file. -/
def snapshot (s : Session) (text : String) : Snapshot :=
  .ofLines s.manifest s.recorder (splitLines text) s.source

/-- The snapshot against the file as it is now. -/
def currentSnapshot (s : Session) (w : Workspace) : Except Failure Snapshot :=
  match w.readText s.filename with
  | .ok text => .ok (s.snapshot text)
  | .error why => .error (.unreadable s.filename why)

end Session

end Coverage
