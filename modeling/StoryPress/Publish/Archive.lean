import StoryPress.Failure
import StoryPress.FileSystem.Walk
import StoryPress.Hash.Sha256
import StoryPress.Publish.Zip

/-!
# Archives

An archive maps entry names to contents. It is written in the byte order of the names, so the order in which
entries are added does not matter.
-/

namespace StoryPress

/-- A file that came into an archive with a tree; its path is relative to the tree. -/
structure TreeFile where
  path : String
  sha256 : String
  size : Nat
deriving DecidableEq, Inhabited

def TreeFile.toJson (f : TreeFile) : Json :=
  .object [("path", .string f.path), ("sha256", .string f.sha256), ("size", Json.ofNat f.size)]

structure Archive where
  entries : OrderedMap String ByteArray := ∅

namespace Archive

def add (a : Archive) (name : String) (content : ByteArray) : Archive := ⟨a.entries.insert name content⟩

def addText (a : Archive) (name text : String) : Archive := a.add name text.toUTF8

def get? (a : Archive) (name : String) : Option ByteArray := a.entries.get? name

/-- The entry names in the order in which they are written. -/
def names (a : Archive) : List String := a.entries.keys

/-- The files below a directory, with their paths from there. -/
def treeFiles (fs : FileSystem) (dir : Path) : Except Failure (List (String × ByteArray)) :=
  match fs.walk dir with
  | .error e => .error (.io dir e)
  | .ok entries =>
    (entries.filterMap fun e =>
      if e.node = .directory then none else (Path.slashBelow? dir e.path).map fun rel => (rel, e.path)).mapM
      fun (rel, p) => do return (rel, ← fs.readWithin maxAssetBytes p)

/-- Adds every file below a directory, with its path from there below `top`. -/
def addTree (fs : FileSystem) (a : Archive) (top : String) (dir : Path) :
    Except Failure (Archive × List TreeFile) := do
  let files ← treeFiles fs dir
  return (files.foldl (fun a (rel, content) => a.add (top ++ "/" ++ rel) content) a,
    files.map fun (rel, content) => ⟨rel, Hash.sha256Hex content, content.size⟩)

/-- The file of the archive. -/
def bytes (a : Archive) : ByteArray := Zip.write a.entries.entries

end Archive

end StoryPress
