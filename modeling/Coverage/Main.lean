import Coverage.CommandLine

/-!
The program. It takes in what the file system holds along the paths that a
request can reach, lets the command line answer on that, and prints the answer. Only what
goes by texts is taken in. Of a dump that is none it says no more than that.
-/
namespace Coverage.Main

/-- What stands in a directory under a name; nothing where it cannot be looked
at. A link is given by where it finally leads. -/
def look (place : Place) (name : String) (content : Bool) : IO (Option Entry) := do
  try
    let path := (← IO.FS.realPath place.path.shown) / name
    match (← path.symlinkMetadata).type with
    | .dir => pure (some .directory)
    | .symlink => pure (some (.link (.ofText (← IO.FS.realPath path).toString)))
    | .file => do
        let bytes ← if content then IO.FS.readBinFile path else pure .empty
        pure (some (.file bytes))
    | .other => pure none
  catch _ => pure none

/-- The names in a directory; none where it cannot be listed. -/
def list (place : Place) : IO (List String) := do
  try
    let entries ← (← IO.FS.realPath place.path.shown).readDir
    pure (entries.toList.map (·.fileName))
  catch _ => pure []

/-- Adds what stands along a path from a place where it has already arrived. -/
partial def addAlong (t : FileTree) (place : Place) : List Bytes → IO FileTree
  | [] => pure t
  | segment :: rest => do
      if segment = [] ∨ segment = [dot] then addAlong t place rest
      else if segment = [dot, dot] then addAlong t place.dropLast rest
      else
        match ← look place (Text.readable segment) true with
        | none => pure t
        | some (.link target) =>
            addAlong (t.add (place ++ [segment]) (.link target)) [] (target.segments ++ rest)
        | some entry => addAlong (t.add (place ++ [segment]) entry) (place ++ [segment]) rest

/-- Adds the dumps below the given directories, and the directories a walk
enters on its way to them. -/
partial def addBelow (t : FileTree) (done : List Place) : List Place → IO FileTree
  | [] => pure t
  | place :: rest => do
      if place ∈ done then addBelow t done rest
      else
        let mut t := t
        let mut next := rest
        for name in ← list place do
          let child := place ++ [Text.bytes name]
          match ← look place name (name.endsWith Filter.dumpSuffix) with
          | none => pure ()
          | some (.link target) =>
              t ← addAlong (t.add child (.link target)) [] target.segments
              match (Workspace.mk t []).resolve target with
              | .ok place => if t.isDirectory place then next := place :: next
              | .error _ => pure ()
          | some entry =>
              t := t.add child entry
              if entry.isDirectory && !Workspace.isSkippedName (Text.bytes name) then next := child :: next
        addBelow t (place :: done) next

/-- The working directory together with all that the request can reach: the
roots, the dumps below them, and the files that these were made for. -/
def surroundings (r : CommandLine.Request) : IO Workspace := do
  let directory := (← IO.currentDir).toString
  let place := (Path.ofText directory).segments.filter (· != [])
  let mut w : Workspace := ⟨← addAlong .empty [] place, place⟩
  match r.options w, r.searchRoots w with
  | .ok o, .ok roots =>
      for root in roots do
        w := { w with tree := ← addAlong w.tree [] root.segments }
        match w.resolve root with
        | .ok place =>
            if w.tree.isDirectory place then
              w := { w with tree := ← addBelow w.tree [] [place] }
        | .error _ => pure ()
      match w.collect o.filter roots with
      | .ok run =>
          for s in run.list do
            let start := if s.filename.isAbsolute then [] else w.directory
            w := { w with tree := ← addAlong w.tree start s.filename.segments }
      | .error _ => pure ()
  | _, _ => pure ()
  pure w

/-- Colours are for terminals, unless the environment says otherwise. -/
def style : IO Style := do
  let forced := (← IO.getEnv "CLICOLOR_FORCE").any (· != "0")
  let refused := (← IO.getEnv "NO_COLOR").isSome || (← IO.getEnv "CLICOLOR") == some "0"
  let terminal ← (← IO.getStdout).isTty
  pure (if forced || (terminal && !refused) then .coloured else .plain)

end Coverage.Main

def main (arguments : List String) : IO UInt32 := do
  let w ←
    match Coverage.CommandLine.read? arguments with
    | some (.report r) => Coverage.Main.surroundings r
    | _ => pure default
  let outcome := Coverage.CommandLine.run w (← Coverage.Main.style) (fun _ => "") arguments
  IO.print outcome.output
  IO.eprint outcome.errors
  pure (UInt32.ofNat outcome.exit)
