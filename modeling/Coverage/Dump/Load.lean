import Coverage.Dump.Format

/-!
Loading stored dumps.
-/
namespace Coverage

/-- The session of a stored dump. -/
def Workspace.load (w : Workspace) (p : Path) : Except Failure Session :=
  match w.readText p with
  | .error why => .error (.unreadable p why)
  | .ok text => do
      let dump ← Dump.ofText text p
      dump.replay (p.parent?.getD ".")

end Coverage
