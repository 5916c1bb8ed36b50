import StoryPress.FileSystem.Basic

/-!
# Walking a directory

A walk lists a path and all that lies below it, a directory before its contents and names in byte order.
Each entry has the path that leads to it from the path walked.
-/

namespace StoryPress

/-- An entry of a walk. -/
structure WalkEntry where
  path : Path
  location : Location
  node : Node

namespace FileSystem

/-- The path of what lies below `p` by the given names. -/
def pathBelow (p : Path) (names : List String) : Path := names.foldl Path.join p

/-- All entries of a walk from a path that exists. -/
def walk (fs : FileSystem) (p : Path) : Except IoFault (List WalkEntry) := do
  let l ← fs.locate p
  match fs.node? l with
  | none => .error .notFound
  | some n =>
    return ⟨p, l, n⟩ :: (fs.below l).map fun (k, m) => ⟨pathBelow p (k.drop l.length), k, m⟩

/-- The files of a walk with their contents. -/
def walkFiles (fs : FileSystem) (p : Path) : Except IoFault (List (Path × ByteArray)) := do
  let entries ← fs.walk p
  return entries.filterMap fun e =>
    match e.node with
    | .file content => some (e.path, content)
    | .directory => none

/-- Removes the directory at a location, and those below it, if nothing is left in them. -/
def sweep (fs : FileSystem) (l : Location) : FileSystem :=
  let directories := (fs.below l).filterMap fun (k, n) => if n = .directory then some k else none
  (l :: directories).reverse.foldl
    (fun fs d => if !d.isEmpty && fs.isEmptyDirectory d then fs.drop d else fs) fs

end FileSystem

end StoryPress
