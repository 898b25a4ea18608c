import Coverage.Session

/-!
All sessions of one run, one for each file. Two paths name one file if they have
the same components; a session that is registered for a known file replaces the
one it had.
-/
namespace Coverage

structure Run where
  sessions : OrderedMap (List Component) Session
deriving Inhabited

namespace Run

def empty : Run := ⟨.empty⟩

def register (r : Run) (s : Session) : Run :=
  ⟨r.sessions.insert s.filename.components s⟩

def session? (r : Run) (p : Path) : Option Session := r.sessions.find? p.components

/-- Changes the session of the path, if there is one. -/
def update (r : Run) (p : Path) (change : Session → Session) : Run :=
  match r.session? p with
  | none => r
  | some s => ⟨r.sessions.insert p.components (change s)⟩

def observe (r : Run) (p : Path) (e : Event) : Run := r.update p (·.observe e)

/-- The sessions in path order. -/
def list (r : Run) : List Session := r.sessions.values

def size (r : Run) : Nat := r.sessions.size

/-- Every session's snapshot, in path order; the first file that cannot be read
fails. -/
def snapshots (r : Run) (w : Workspace) : Except Failure (List (Path × Snapshot)) :=
  r.list.mapM fun s => (s.currentSnapshot w).map fun snapshot => (s.filename, snapshot)

end Run

end Coverage
