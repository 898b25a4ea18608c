import Coverage.FileTree.Walk
import Coverage.Filter

/-!
Finding dumps. A file is taken if it passes the filter, a directory is walked;
below it, hidden directories, `node_modules` and ignored directories are not
entered, and files are left out that their path does not lead to, as where it has
become too long. What is found is listed in path order.
-/
namespace Coverage.Workspace

/-- A name that is no text counts as empty. -/
def isSkippedName (name : Bytes) : Bool :=
  let text := (Text.ofBytes? name).getD ""
  text.startsWith "." || text == "node_modules"

def enters (w : Workspace) (f : Filter) (path : Path) (name : Bytes) : Bool :=
  !isSkippedName name && !f.isIgnored w.directoryPath path

/-- What is found at a root, where `fits` tells which texts a pattern fits. -/
def discoverBy (fits : Glob → String → Bool) (w : Workspace) (f : Filter) (root : Path) :
    Except Failure (List Path) :=
  match w.resolve root with
  | .error _ => .error (.pathNotFound root)
  | .ok place =>
      if w.tree.isDirectory place then
        let found := (w.tree.walk (w.enters f) [place] place root).filter fun p =>
          w.isFile p && f.acceptsBy fits w.directoryPath p
        .ok (found.mergeSort Path.le)
      else .ok (if f.acceptsBy fits w.directoryPath root then [root] else [])

def discover (w : Workspace) (f : Filter) (root : Path) : Except Failure (List Path) :=
  w.discoverBy Glob.accepts f root

/-- Of neighbours with the same components the first one stays. -/
def withoutRepeats (paths : List Path) : List Path :=
  paths.eraseRepsBy fun p q => compare p q == .eq

/-- The dumps below any of the roots, each once. -/
def discoverAll (w : Workspace) (f : Filter) (roots : List Path) : Except Failure (List Path) := do
  let found ← roots.mapM (w.discover f)
  .ok (withoutRepeats (found.flatten.mergeSort Path.le))

end Coverage.Workspace
