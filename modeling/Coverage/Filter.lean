import Coverage.Failure

/-!
Which dumps and which source files to consider. A dump is a file by its name; it
passes unless it is ignored, excluded, or not among those included. A path is
ignored when it or a directory above it is on the ignore list, component by
component.
-/
namespace Coverage

structure Filter where
  includes : List Glob
  excludes : List Glob
  /-- Absolute paths. -/
  ignored : List Path
deriving DecidableEq, Inhabited

namespace Filter

def dumpSuffix : String := ".cov.json"

/-- Lets every dump pass. -/
def all : Filter := ⟨[], [], []⟩

def compile (pattern : String) : Except Failure Glob :=
  match Glob.compile pattern with
  | .ok glob => .ok glob
  | .error error => .error (.badGlob pattern error)

def including (f : Filter) (patterns : List String) : Except Failure Filter := do
  let globs ← patterns.mapM compile
  .ok { f with includes := f.includes ++ globs }

def excluding (f : Filter) (patterns : List String) : Except Failure Filter := do
  let globs ← patterns.mapM compile
  .ok { f with excludes := f.excludes ++ globs }

def ignoring (f : Filter) (directory : Path) (paths : List Path) : Filter :=
  { f with ignored := f.ignored ++ paths.map fun p => p.absolute directory }

/-- The filter of the given patterns and paths; the first bad pattern fails. -/
def build (directory : Path) (includes excludes ignored : List String) : Except Failure Filter := do
  let f ← all.including includes
  let f ← f.excluding excludes
  .ok (f.ignoring directory (ignored.map Path.ofText))

def isIgnored (f : Filter) (directory p : Path) : Bool :=
  f.ignored.any fun ignored => (p.absolute directory).startsWith ignored

/-- A name that is no text does not count. -/
def isDump (p : Path) : Bool :=
  (p.fileName?.bind Text.ofBytes?).any fun name => name.endsWith dumpSuffix

/-- The path passes, where `fits` tells which texts a pattern fits. -/
def acceptsBy (fits : Glob → String → Bool) (f : Filter) (directory p : Path) : Bool :=
  isDump p && !f.isIgnored directory p && !f.excludes.any (fits · p.shown) &&
    (f.includes.isEmpty || f.includes.any (fits · p.shown))

def accepts (f : Filter) (directory p : Path) : Bool := f.acceptsBy Glob.accepts directory p

end Filter

end Coverage
