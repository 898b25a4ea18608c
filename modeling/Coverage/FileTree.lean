import Coverage.OrderedMap
import Coverage.Path

/-!
File trees and the look-up of paths in them. A place is the list of names that
leads from the top to an entry; a name need not be text. A path is resolved name by
name: a climb leaves the directory that was reached, a link goes on at its target,
and everything on the way has to be a directory.
-/
namespace Coverage

abbrev Place := List Bytes

def Place.path (place : Place) : Path := ⟨slash :: [slash].intercalate place⟩

inductive Entry where
  | file (content : ByteArray)
  | directory
  | link (target : Path)

def Entry.isDirectory : Entry → Bool
  | directory => true
  | _ => false

/-- Why a path leads to no text. -/
inductive Obstacle where
  | notFound
  | notDirectory
  | isDirectory
  | nameTooLong
  | tooManyLinks
  | holdsNul
  | notText
deriving DecidableEq, Repr

def Obstacle.message : Obstacle → String
  | notFound => "No such file or directory (os error 2)"
  | notDirectory => "Not a directory (os error 20)"
  | isDirectory => "Is a directory (os error 21)"
  | nameTooLong => "File name too long (os error 36)"
  | tooManyLinks => "Too many levels of symbolic links (os error 40)"
  | holdsNul => "file name contained an unexpected NUL byte"
  | notText => "stream did not contain valid UTF-8"

/-- The top is a directory and has no entry of its own. -/
structure FileTree where
  entries : OrderedMap Place Entry
deriving Inhabited

namespace FileTree

def empty : FileTree := ⟨.empty⟩

/-- Makes a directory where there is nothing yet. -/
def ensureDirectory (t : FileTree) (place : Place) : FileTree :=
  if place.isEmpty then t else ⟨t.entries.alter place fun held => held.getD .directory⟩

/-- The places above a place, the topmost first. -/
def above (place : Place) : List Place := (List.range place.length).map place.take

/-- Adds an entry and the directories above it that are missing. -/
def add (t : FileTree) (place : Place) (entry : Entry) : FileTree :=
  ⟨((above place).foldl ensureDirectory t).entries.insert place entry⟩

def find? (t : FileTree) (place : Place) : Option Entry := t.entries.find? place

def directories (t : FileTree) : List Place :=
  [] :: t.entries.entries.filterMap fun e => if e.2.isDirectory then some e.1 else none

def isDirectory (t : FileTree) (place : Place) : Bool := t.directories.contains place

/-- The names of the entries in a directory. -/
def names (t : FileTree) (place : Place) : List Bytes :=
  t.entries.keys.filterMap fun held =>
    if held.dropLast = place then held.getLast? else none

/-- A path may pass through this many links. -/
def maxLinks : Nat := 40

def maxNameBytes : Nat := 255

def maxPathBytes : Nat := 4095

/-- Follows the pieces of a path from a place where it has already arrived. -/
def follow (t : FileTree) (links : Nat) (place : Place) : List Bytes → Except Obstacle Place
  | [] => .ok place
  | segment :: rest =>
      if !t.isDirectory place then .error .notDirectory
      else if segment = [] ∨ segment = [dot] then t.follow links place rest
      else if segment = [dot, dot] then t.follow links place.dropLast rest
      else if maxNameBytes < segment.length then .error .nameTooLong
      else
        match t.find? (place ++ [segment]), links with
        | none, _ => .error .notFound
        | some (.link _), 0 => .error .tooManyLinks
        | some (.link target), links + 1 =>
            t.follow links (if target.isAbsolute then [] else place) (target.segments ++ rest)
        | some _, links => t.follow links (place ++ [segment]) rest
termination_by segments => (links, segments.length)

end FileTree

/-- A file tree and the directory in it that relative paths start from. -/
structure Workspace where
  tree : FileTree
  directory : Place
deriving Inhabited

namespace Workspace

def directoryPath (w : Workspace) : Path := w.directory.path

def resolve (w : Workspace) (p : Path) : Except Obstacle Place :=
  if p.bytes.contains 0 then .error .holdsNul
  else if p.bytes = [] then .error .notFound
  else if FileTree.maxPathBytes < p.bytes.length then .error .nameTooLong
  else w.tree.follow FileTree.maxLinks (if p.isAbsolute then [] else w.directory) p.segments

/-- The text of the file that a path leads to. -/
def readText (w : Workspace) (p : Path) : Except Obstacle String := do
  let place ← w.resolve p
  if w.tree.isDirectory place then .error .isDirectory
  else
    match w.tree.find? place with
    | some (.file content) =>
        match String.fromUTF8? content with
        | some text => .ok text
        | none => .error .notText
    | _ => .error .notFound

/-- The path leads to something other than a directory. -/
def isFile (w : Workspace) (p : Path) : Bool :=
  match w.resolve p with
  | .ok place => !w.tree.isDirectory place
  | .error _ => false

/-- The same tree seen from another directory. -/
def enter (w : Workspace) (p : Path) : Except Obstacle Workspace := do
  let place ← w.resolve p
  if w.tree.isDirectory place then .ok { w with directory := place } else .error .notDirectory

end Workspace

end Coverage
