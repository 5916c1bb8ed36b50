import StoryPress.Failure
import StoryPress.Json.Reader
import StoryPress.Naming.Component

/-!
# Document stores

Documents are looked up by kind and id: in files named for their ids, in a directory for each kind, or among
documents held in memory. A scene file is known by its name, whatever id it holds.
-/

namespace StoryPress

/-- Documents held in memory; of several with one kind and id the last is kept. -/
structure Shelf where
  projects : OrderedMap String Project := ∅
  timelines : OrderedMap String Timeline := ∅
  scenes : OrderedMap String Scene := ∅
  worlds : OrderedMap String World := ∅

namespace Shelf

def addProject (s : Shelf) (d : Project) : Shelf := { s with projects := s.projects.insert d.id d }

def addTimeline (s : Shelf) (d : Timeline) : Shelf := { s with timelines := s.timelines.insert d.id d }

def addScene (s : Shelf) (d : Scene) : Shelf := { s with scenes := s.scenes.insert d.id d }

def addWorld (s : Shelf) (d : World) : Shelf := { s with worlds := s.worlds.insert d.id d }

end Shelf

inductive Store where
  | directory (root : Path)
  | memory (shelf : Shelf)

namespace Store

/-- The file of a document, if its id can be the name of one. -/
def documentPath? (root : Path) (kind : DocumentKind) (id : String) : Option Path :=
  if Naming.isSafeComponent id then some ((root.join kind.directory).join (id ++ ".json")) else none

/-- Reads the file of a document. -/
def load {α : Type} (fs : FileSystem) (root : Path) (kind : DocumentKind) (id : String)
    (read : Json.Tree → Json.Reading α) : Except Failure (α × Path) :=
  match (documentPath? root kind id).filter fs.isFile with
  | none => .error (.missingDocument kind id)
  | some p => do
    let bytes ← fs.readWithin maxDocumentBytes p
    match Json.parseBytes read bytes with
    | .ok d => return (d, p)
    | .error c => .error (.unreadableDocument kind id c)

private def held {α : Type} (kind : DocumentKind) (id : String) : Option α → Except Failure α
  | some d => .ok d
  | none => .error (.missingDocument kind id)

def project (fs : FileSystem) (id : String) : Store → Except Failure Project
  | directory root => do
    let (d, p) ← load fs root .project id Project.read
    return { d with id := if d.id.isEmpty then id else d.id, source := some p }
  | memory shelf => held .project id (shelf.projects.get? id)

def timeline (fs : FileSystem) (id : String) : Store → Except Failure Timeline
  | directory root => do
    let (d, p) ← load fs root .timeline id Timeline.read
    return { d with id := if d.id.isEmpty then id else d.id, source := some p }
  | memory shelf => held .timeline id (shelf.timelines.get? id)

def scene (fs : FileSystem) (id : String) : Store → Except Failure Scene
  | directory root => do
    let (d, p) ← load fs root .scene id Scene.read
    return { d with id := id, source := some p }
  | memory shelf => held .scene id (shelf.scenes.get? id)

def world (fs : FileSystem) (id : String) : Store → Except Failure World
  | directory root => do
    let (d, p) ← load fs root .world id World.read
    return { d with id := if d.id.isEmpty then id else d.id, source := some p }
  | memory shelf => held .world id (shelf.worlds.get? id)

end Store

end StoryPress
