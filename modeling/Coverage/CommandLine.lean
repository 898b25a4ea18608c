import Coverage.Collection
import Coverage.Table.Colour

/-!
The command line: reading the arguments and answering them with an exit code and
the texts for standard output and standard error.
-/
namespace Coverage.CommandLine

inductive Flag where
  | reporter
  | includes
  | excludes
  | ignored
  | order
deriving DecidableEq, Repr

/-- What was asked for; the lists are in the order of the arguments. -/
structure Request where
  roots : List String
  kind : Option ReportKind
  includes : List String
  excludes : List String
  ignored : List String
  order : Option SortOrder
deriving DecidableEq, Repr, Inhabited

def Request.none : Request := ⟨[], .none, [], [], [], .none⟩

inductive Invocation where
  | help
  | version
  | report (request : Request)
deriving DecidableEq, Repr

/-- The reports by the names they have on the command line. -/
def reportKind? : String → Option ReportKind
  | "cli" => some .table
  | "json" => some .json
  | "plain" => some .plain
  | _ => none

def sortOrder? : String → Option SortOrder
  | "filename" => some .filename
  | "coverage" => some .coverage
  | _ => none

/-- Takes a flag's value. Report and order are given at most once. -/
def Request.set? (r : Request) (flag : Flag) (value : String) : Option Request :=
  match flag with
  | .reporter =>
      if r.kind.isSome then .none
      else (reportKind? value).map fun kind => { r with kind := some kind }
  | .order =>
      if r.order.isSome then .none
      else (sortOrder? value).map fun order => { r with order := some order }
  | .includes => some { r with includes := r.includes ++ [value] }
  | .excludes => some { r with excludes := r.excludes ++ [value] }
  | .ignored => some { r with ignored := r.ignored ++ [value] }

inductive Argument where
  | root
  | unknown
  | help
  | version
  | flag (flag : Flag) (value : Option String)

def longFlag? : String → Option Flag
  | "reporter" => some .reporter
  | "include" => some .includes
  | "exclude" => some .excludes
  | "ignore" => some .ignored
  | "sort" => some .order
  | _ => none

def shortFlag? : Char → Option Flag
  | 'r' => some .reporter
  | 'i' => some .includes
  | 'e' => some .excludes
  | 's' => some .order
  | _ => none

/-- An argument after two dashes; an equals sign sets its value off. -/
def longArgument (body : List Char) : Argument :=
  let name := String.ofList (body.takeWhile (· != '='))
  let value :=
    match body.dropWhile (· != '=') with
    | [] => .none
    | _ :: value => some (String.ofList value)
  match longFlag? name with
  | some flag => .flag flag value
  | .none =>
      if name = "help" ∧ value = .none then .help
      else if name = "version" ∧ value = .none then .version
      else .unknown

/-- An argument after one dash; the value may follow the letter at once. -/
def shortArgument (letter : Char) (rest : List Char) : Argument :=
  match shortFlag? letter with
  | some flag =>
      match rest with
      | [] => .flag flag .none
      | '=' :: value => .flag flag (some (String.ofList value))
      | value => .flag flag (some (String.ofList value))
  | .none => if letter = 'h' then .help else if letter = 'V' then .version else .unknown

/-- A single dash is a root like any other. -/
def argument (text : String) : Argument :=
  match text.toList with
  | '-' :: '-' :: body => longArgument body
  | '-' :: letter :: rest => shortArgument letter rest
  | _ => .root

/-- A flag's value in an argument of its own must not look like a flag. -/
def isValue (text : String) : Bool :=
  match text.toList with
  | '-' :: _ :: _ => false
  | _ => true

/-- Reads the arguments; nothing for those that break the usage. After two dashes
every argument is a root. -/
def readFrom (r : Request) : List String → Option Invocation
  | [] => some (.report r)
  | "--" :: rest => some (.report { r with roots := r.roots ++ rest })
  | text :: rest =>
      match argument text with
      | .root => readFrom { r with roots := r.roots ++ [text] } rest
      | .unknown => .none
      | .help => some .help
      | .version => some .version
      | .flag flag (some value) => (r.set? flag value).bind fun r => readFrom r rest
      | .flag flag .none =>
          match rest with
          | [] => .none
          | value :: rest =>
              if isValue value then (r.set? flag value).bind fun r => readFrom r rest else .none

def read? (arguments : List String) : Option Invocation := readFrom .none arguments

inductive Trouble where
  | failure (failure : Failure)
  | emptyRoot
deriving DecidableEq, Repr

def Trouble.message (complaint : String → String) : Trouble → String
  | failure f => f.messageWithCause complaint
  | emptyRoot => "invalid path '': cannot make an empty path absolute"

/-- Names are shown relative to the working directory. -/
def Request.options (r : Request) (w : Workspace) : Except Trouble Options :=
  match Filter.build w.directoryPath r.includes r.excludes r.ignored with
  | .error f => .error (.failure f)
  | .ok filter =>
      .ok
        { filter
          kind := r.kind.getD .table
          base := some w.directoryPath
          order := r.order.getD .filename }

/-- The roots to search, made absolute; the working directory if there are none. -/
def Request.searchRoots (r : Request) (w : Workspace) : Except Trouble (List Path) :=
  (if r.roots.isEmpty then ["."] else r.roots).mapM fun root =>
    match (Path.ofText root).absolute? w.directoryPath with
    | some path => .ok path
    | .none => .error .emptyRoot

def render (w : Workspace) (run : Run) (o : Options) (style : Style) : Except Failure String :=
  match o.kind with
  | .table => (run.table w o).map fun t => t.renderWith style
  | _ => run.report w o

def Request.answer (r : Request) (w : Workspace) (style : Style) : Except Trouble String := do
  let o ← r.options w
  let roots ← r.searchRoots w
  let text := do
    let run ← w.collect o.filter roots
    render w run o style
  text.mapError .failure

structure Outcome where
  exit : Nat
  output : String
  errors : String
deriving DecidableEq, Repr

def versionText : String := "scriptcov 0.1.0\n"

def usageText : String :=
  "Usage: scriptcov [OPTIONS] [path]...\n\nOptions:\n" ++
    "  -r, --reporter <reporter>  Output format: cli, json or plain\n" ++
    "  -i, --include <include>    Include dumps matching glob pattern\n" ++
    "  -e, --exclude <exclude>    Exclude dumps matching glob pattern\n" ++
    "      --ignore <ignore>      Ignore a source file or directory\n" ++
    "  -s, --sort <sort>          Row order: filename or coverage\n" ++
    "  -h, --help                 Print help\n  -V, --version              Print version\n"

def run (w : Workspace) (style : Style) (complaint : String → String)
    (arguments : List String) : Outcome :=
  match read? arguments with
  | .none => ⟨2, "", usageText⟩
  | some .help => ⟨0, usageText, ""⟩
  | some .version => ⟨0, versionText, ""⟩
  | some (.report r) =>
      match r.answer w style with
      | .ok text => ⟨0, text, ""⟩
      | .error trouble => ⟨1, "", "Error: " ++ trouble.message complaint ++ "\n"⟩

end Coverage.CommandLine
