import StoryPress.Bytes
import StoryPress.OrderedMap
import StoryPress.FileSystem.Path

/-!
# File systems as values

A file system keeps files and directories by their location: the list of names from the root. The order of
locations is the order of a walk, a directory before what is in it. What a program does to files is a
function from file systems to file systems, and each refusal has its cause.
-/

namespace StoryPress

/-- Why the file system refuses an operation. -/
inductive IoFault where
  | notFound
  | alreadyExists
  | notADirectory
  | isADirectory
  | notAFile
  | notText
  | notEmpty
deriving DecidableEq, Inhabited, Repr

def IoFault.message : IoFault → String
  | notFound => "No such file or directory (os error 2)"
  | alreadyExists => "File exists (os error 17)"
  | notADirectory => "Not a directory (os error 20)"
  | isADirectory => "Is a directory (os error 21)"
  | notAFile => "the source path is neither a regular file nor a symlink to a regular file"
  | notText => "stream did not contain valid UTF-8"
  | notEmpty => "Directory not empty (os error 39)"

abbrev Location := List String

inductive Node where
  | file (content : ByteArray)
  | directory
deriving DecidableEq, Inhabited

structure FileSystem where
  nodes : OrderedMap Location Node := ∅
  /-- The working directory. -/
  here : Location := []
deriving Inhabited

namespace FileSystem

/-- What is at a location; the root is a directory. -/
def node? (fs : FileSystem) (l : Location) : Option Node :=
  if l.isEmpty then some .directory else fs.nodes.get? l

/-- Follows segments from a location. Each segment, a filler too, is looked up in a directory. -/
def follow (fs : FileSystem) : Location → List String → Except IoFault Location
  | at_, [] => if (fs.node? at_).isSome then .ok at_ else .error .notFound
  | at_, s :: rest =>
    match fs.node? at_ with
    | none => .error .notFound
    | some (.file _) => .error .notADirectory
    | some .directory =>
      if Path.isFiller s then follow fs at_ rest
      else if s = ".." then follow fs at_.dropLast rest
      else follow fs (at_ ++ [s]) rest

/-- Where a path starts. -/
def origin (fs : FileSystem) (p : Path) : Location := if p.isAbsolute then [] else fs.here

/-- The location of something that exists. -/
def locate (fs : FileSystem) (p : Path) : Except IoFault Location :=
  if p.text.isEmpty then .error .notFound else fs.follow (fs.origin p) p.segments

/-- What a path names. -/
def stat (fs : FileSystem) (p : Path) : Except IoFault Node := do
  let l ← fs.locate p
  match fs.node? l with
  | some n => .ok n
  | none => .error .notFound

def isFile (fs : FileSystem) (p : Path) : Bool :=
  match fs.stat p with
  | .ok (.file _) => true
  | _ => false

def isDirectory (fs : FileSystem) (p : Path) : Bool :=
  match fs.stat p with
  | .ok .directory => true
  | _ => false

def contains (fs : FileSystem) (p : Path) : Bool := (fs.stat p).isOk

/-- The content of a file. -/
def read (fs : FileSystem) (p : Path) : Except IoFault ByteArray := do
  match ← fs.stat p with
  | .file content => .ok content
  | .directory => .error .isADirectory

/-- What lies below a location, in the order of a walk. -/
def below (fs : FileSystem) (l : Location) : List (Location × Node) :=
  fs.nodes.entries.filter fun e => l.isPrefixOf e.1 && e.1.length != l.length

def isEmptyDirectory (fs : FileSystem) (l : Location) : Bool := (fs.below l).isEmpty

/-- The place of a new entry: its directory, which must exist, and its name. A path that ends in a filler or
in two periods names no new entry. -/
inductive Slot where
  | existing
  | entry (location : Location) (slash : Bool)
deriving Inhabited

/-- Finds the place that a path has for an entry to be made. -/
def slot (fs : FileSystem) (p : Path) : Except IoFault Slot := do
  match p.entrySegments.getLast? with
  | none => .ok .existing
  | some last =>
    if p.text.isEmpty then .error .notFound
    else
      let dir ← fs.follow (fs.origin p) p.entrySegments.dropLast
      match fs.node? dir with
      | some .directory =>
        if last = "." || last = ".." then .ok .existing else .ok (.entry (dir ++ [last]) p.endsInSlash)
      | _ => .error .notADirectory

def put (fs : FileSystem) (l : Location) (n : Node) : FileSystem := { fs with nodes := fs.nodes.insert l n }

def drop (fs : FileSystem) (l : Location) : FileSystem := { fs with nodes := fs.nodes.erase l }

/-- Makes one directory. -/
def makeDirectory (fs : FileSystem) (p : Path) : Except IoFault FileSystem := do
  match ← fs.slot p with
  | .existing => .error .alreadyExists
  | .entry l _ => if (fs.node? l).isSome then .error .alreadyExists else .ok (fs.put l .directory)

/-- Makes a directory, or leaves one that is there. -/
def ensureDirectory (fs : FileSystem) (p : Path) : Except IoFault FileSystem :=
  match fs.makeDirectory p with
  | .ok fs => .ok fs
  | .error e => if fs.isDirectory p then .ok fs else .error e

/-- Makes a directory; where the one above it is missing, `makeAbove` is asked for that first. -/
def makeDirectoryUnder (fs : FileSystem) (makeAbove : Path → Except IoFault FileSystem) (p : Path) :
    Except IoFault FileSystem :=
  if p.text.isEmpty then .ok fs
  else
    match fs.makeDirectory p with
    | .error .notFound =>
      match p.parent? with
      | some above => do (← makeAbove above).ensureDirectory p
      | none => .error .notFound
    | _ => fs.ensureDirectory p

/-- Makes a directory, and first those above it that are missing; `depth` bounds their number. -/
def makeDirectoriesFrom : Nat → FileSystem → Path → Except IoFault FileSystem
  | 0, fs, p => fs.makeDirectoryUnder (fun _ => .error .notFound) p
  | depth + 1, fs, p => fs.makeDirectoryUnder (makeDirectoriesFrom depth fs) p

def makeDirectories (fs : FileSystem) (p : Path) : Except IoFault FileSystem :=
  makeDirectoriesFrom p.text.length fs p

/-- Makes or replaces a file. -/
def write (fs : FileSystem) (p : Path) (content : ByteArray) : Except IoFault FileSystem := do
  match ← fs.slot p with
  | .existing => .error .isADirectory
  | .entry l slash =>
    if slash then .error .isADirectory
    else
      match fs.node? l with
      | some .directory => .error .isADirectory
      | _ => .ok (fs.put l (.file content))

/-- Copies a file. The target is emptied before the source is read, so a file copied onto itself is empty. -/
def copy (fs : FileSystem) (source target : Path) : Except IoFault FileSystem := do
  match ← fs.stat source with
  | .directory => .error .notAFile
  | .file _ =>
    let fs ← fs.write target ByteArray.empty
    let content ← fs.read source
    fs.write target content

/-- Removes a file. -/
def removeFile (fs : FileSystem) (p : Path) : Except IoFault FileSystem := do
  let l ← fs.locate p
  match fs.node? l with
  | some (.file _) => .ok (fs.drop l)
  | _ => .error .isADirectory

/-- Removes everything at and below a location. -/
def removeTree (fs : FileSystem) (l : Location) : FileSystem :=
  { fs with nodes := fs.nodes.filter fun k _ => !l.isPrefixOf k }

end FileSystem

end StoryPress
