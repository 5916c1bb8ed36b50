import StoryPress.Bytes
import StoryPress.Diff.Unified
import StoryPress.Failure
import StoryPress.FileSystem.Walk
import StoryPress.Hash.Sha256

/-!
# The artifact sink

Every file of a bundle goes through a sink. A real run writes it below the root of the sink; a dry run
compares it with what is there and records the change instead, and touches nothing. Pruning removes the files
of a directory that the run did not produce.
-/

namespace StoryPress

inductive ChangeStatus where
  | new
  | unchanged
  | modified
  | removed
deriving DecidableEq, Inhabited

def ChangeStatus.name : ChangeStatus → String
  | new => "new"
  | unchanged => "unchanged"
  | modified => "modified"
  | removed => "removed"

inductive ChangeDetail where
  | unified (text : String) (truncated : Bool)
  | hashes (before : Option String) (after : String)
deriving DecidableEq, Inhabited

/-- What a run would do to a file. -/
structure Change where
  /-- Relative to the root of the sink. -/
  path : String
  status : ChangeStatus
  detail : Option ChangeDetail := none
deriving DecidableEq, Inhabited

namespace Change

/-- What writing a text would do. -/
def ofText (fs : FileSystem) (path : String) (target : Path) (text : String) : Except Failure Change :=
  if !fs.isFile target then .ok ⟨path, .new, none⟩
  else do
    let old ← fs.readWithin maxDocumentBytes target
    if old = text.toUTF8 then return ⟨path, .unchanged, none⟩
    else
      let detail :=
        match Bytes.text? old with
        | some oldText =>
          let (diff, truncated) := Diff.unified path oldText text
          ChangeDetail.unified diff truncated
        | none => .hashes (some (Hash.sha256Hex old)) (Hash.sha256Text text)
      return ⟨path, .modified, some detail⟩

/-- What writing a file with the given digest would do. -/
def ofHash (fs : FileSystem) (path : String) (target : Path) (after : String) : Except Failure Change :=
  if !fs.isFile target then .ok ⟨path, .new, some (.hashes none after)⟩
  else do
    let before := Hash.sha256Hex (← fs.readWithin maxAssetBytes target)
    if before = after then return ⟨path, .unchanged, none⟩
    else return ⟨path, .modified, some (.hashes (some before) after)⟩

end Change

/-- What is put into a file. -/
inductive Content where
  | text (s : String)
  | bytes (b : ByteArray)
  /-- The content of another file. -/
  | copyOf (source : Path)
deriving Inhabited

structure Sink where
  root : Path
  dryRun : Bool
  changes : List Change := []
  written : List Path := []
  /-- The paths of this run, relative to the root. -/
  produced : List String := []
deriving Inhabited

/-- The files, and the sink that puts artifacts among them. -/
structure Workbench where
  files : FileSystem
  sink : Sink
deriving Inhabited

/-- A step of a run. A failure leaves the files and the sink as they are at that point. -/
abbrev Work := ExceptT Failure (StateM Workbench)

namespace Sink

/-- Runs a function of the files that can fail. -/
def reading {α : Type} (f : FileSystem → Except Failure α) : Work α := fun w => (f w.files, w)

/-- Runs an operation on the files; its fault is reported at `path`. -/
def changing (path : Path) (f : FileSystem → Except IoFault FileSystem) : Work Unit := fun w =>
  match f w.files with
  | .ok files => (.ok (), { w with files := files })
  | .error e => (.error (.io path e), w)

def updating (f : Sink → Sink) : Work Unit := fun w => (.ok (), { w with sink := f w.sink })

/-- What putting content at a target would do. -/
def changeFor (fs : FileSystem) (path : String) (target : Path) : Content → Except Failure Change
  | .text s => Change.ofText fs path target s
  | .bytes b => Change.ofHash fs path target (Hash.sha256Hex b)
  | .copyOf source => do
    let bytes ← fs.readWithin maxAssetBytes source
    Change.ofHash fs path target (Hash.sha256Hex bytes)

/-- Puts content into a file. -/
def store (target : Path) : Content → Work Unit
  | .text s => changing target (·.write target s.toUTF8)
  | .bytes b => changing target (·.write target b)
  | .copyOf source => changing target (·.copy source target)

/-- Produces an artifact; gives its path. -/
def put (path : String) (content : Content) : Work Path := do
  let sink := (← get).sink
  let target := sink.root.join path
  updating fun s => { s with produced := path :: s.produced }
  if sink.dryRun then
    let change ← reading (changeFor · path target content)
    updating fun s => { s with changes := s.changes ++ [change] }
  else
    match target.parent? with
    | some dir => changing dir (·.makeDirectories dir)
    | none => pure ()
    store target content
    updating fun s => { s with written := s.written ++ [target] }
  return target

/-- The files below `dir` that the run did not produce, with their paths relative to the root. -/
def stale (fs : FileSystem) (s : Sink) (dir : Path) : List (String × Path) :=
  match fs.walkFiles dir with
  | .error _ => []
  | .ok files =>
    files.filterMap fun (p, _) =>
      match Path.textBelow? s.root p with
      | none => none
      | some rel =>
        let rel := Text.mapChars (fun c => if c = '\\' then '/' else c) rel
        if s.produced.contains rel then none else some (rel, p)

/-- Removes files one after the other. -/
def removeAll : List Path → Work Unit
  | [] => pure ()
  | p :: ps => do
    changing p (·.removeFile p)
    removeAll ps

/-- Removes what the run did not produce below a directory, and the directories that are empty then. Gives
the number of files. -/
def prune (rel : String) : Work Nat := do
  let w ← get
  let dir := w.sink.root.join rel
  if !w.files.isDirectory dir then return 0
  let found := stale w.files w.sink dir
  if w.sink.dryRun then
    updating fun s => { s with changes := s.changes ++ found.map fun (p, _) => ⟨p, .removed, none⟩ }
  else
    removeAll (found.map (·.2))
    changing dir fun fs => do return fs.sweep (← fs.locate dir)
  return found.length

end Sink

end StoryPress
