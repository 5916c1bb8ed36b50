import Std.Time.DateTime.Timestamp
import StoryPress.Command.Reach

/-!
# The command line

Takes in the files that a command can reach, runs the command on them, and brings the files on disk to the
state in which the command leaves them.
-/

namespace StoryPress.CommandLine

/-- The names that lead from the root to an absolute path. -/
def locationOf (p : String) : Location := (Path.mk p).segments.filter fun s => !Path.isFiller s

def textOf (l : Location) : String := "/" ++ Text.joinWith "/" l

/-- The path in full, with the segments that climb resolved. -/
def absolute (here : Location) (p : Path) : Location :=
  p.segments.foldl (fun l s => if Path.isFiller s then l else if s = ".." then l.dropLast else l ++ [s])
    (if p.isAbsolute then [] else here)

/-- Takes in what is at and below a location, if there is anything. -/
partial def load (fs : FileSystem) (l : Location) : IO FileSystem := do
  match ← (IO.FS.realPath (textOf l)).toBaseIO with
  | .error _ => return fs
  | .ok path =>
    if ← path.isDir then
      let mut fs := if l.isEmpty then fs else fs.put l .directory
      for e in ← path.readDir do
        fs ← load fs (l ++ [e.fileName])
      return fs
    else return fs.put l (.file (← IO.FS.readBinFile path))

/-- Takes in what is on the way to a location. -/
def loadAbove (fs : FileSystem) (l : Location) : IO FileSystem := do
  let mut fs := fs
  for n in List.range l.length do
    let dir := l.take n
    match ← (IO.FS.realPath (textOf dir)).toBaseIO with
    | .ok path =>
      if ← path.isDir then fs := if dir.isEmpty then fs else fs.put dir .directory
      else fs := fs.put dir (.file (← IO.FS.readBinFile path))
    | .error _ => pure ()
  return fs

def loadPath (fs : FileSystem) (p : Path) : IO FileSystem := do
  let l := absolute fs.here p
  load (← loadAbove fs l) l

/-- Brings the disk from one state to another. -/
def store (before after : FileSystem) : IO Unit := do
  for (l, n) in before.nodes.entries.reverse do
    if (after.node? l).isNone then
      match n with
      | .file _ => IO.FS.removeFile (textOf l)
      | .directory => IO.FS.removeDir (textOf l)
  for (l, n) in after.nodes.entries do
    if before.node? l != some n then
      match n with
      | .directory => IO.FS.createDirAll (textOf l)
      | .file content => IO.FS.writeBinFile (textOf l) content

/-- The files that a command line can reach. -/
def reached (here : Location) (words : List String) : IO FileSystem := do
  let fs ← loadAbove { here := here } (here ++ [""])
  match Invocation.parse words with
  | .error _ => return fs
  | .ok i =>
    let fs ← loadPath fs i.manifest
    match Command.settingsText fs i.manifest with
    | .error _ => return fs
    | .ok settings => (i.paths settings).foldlM loadPath fs

def run (words : List String) : IO UInt32 := do
  let here := locationOf (toString (← IO.currentDir))
  let now ← Std.Time.Timestamp.now
  let clock : Command.Clock :=
    { epoch := ← IO.getEnv "SOURCE_DATE_EPOCH", now := ⟨now.toSecondsSinceUnixEpoch.val⟩ }
  let before ← reached here words
  let outcome := Outcome.ofCommandLine before words clock
  store before outcome.files
  IO.print outcome.output
  IO.eprint outcome.errors
  return UInt32.ofNat outcome.code

end StoryPress.CommandLine

def main (words : List String) : IO UInt32 := StoryPress.CommandLine.run words
