import Coverage.FileTree
import Coverage.Glob

/-!
What can go wrong while coverage is collected or reported, and the words for it.
Why a text is no dump is said by the parser of that text. Its words are no part of this
library: `complaint` stands for them.
-/
namespace Coverage

inductive Failure where
  | unreadable (path : Path) (why : Obstacle)
  | repeatedId (id : UInt64)
  | malformedDump (path : Path) (text : String)
  | filenameNotText
  | badGlob (pattern : String) (error : Glob.Error)
  | pathNotFound (path : Path)
  | unknownReporter (name : String)
  | unknownSort (name : String)
deriving DecidableEq, Repr

namespace Failure

def message (complaint : String → String) : Failure → String
  | unreadable path why => s!"failed to read file '{path.shown}': {why.message}"
  | repeatedId id => s!"duplicate node id {id} in instrumentation manifest"
  | malformedDump path text => s!"invalid coverage dump '{path.shown}': {complaint text}"
  | filenameNotText => "JSON error: path contains invalid UTF-8 characters"
  | badGlob pattern error => s!"invalid glob pattern '{pattern}': {error.message}"
  | pathNotFound path => s!"path does not exist: {path.shown}"
  | unknownReporter name => s!"unknown reporter '{name}' (expected one of: cli, json, plain)"
  | unknownSort name => s!"Unknown sort field: {name}"

/-- The failure with what caused it. -/
def messageWithCause (complaint : String → String) (f : Failure) : String :=
  match f with
  | unreadable _ why => f.message complaint ++ ": " ++ why.message
  | _ => f.message complaint

end Failure

end Coverage
