import StoryPress.Document.Placement
import StoryPress.FileSystem.Path

/-!
# Documents

A project lists scenes; a timeline places them in an order; a scene holds dialogue as raw values; a world
picks a timeline and names viewpoints. Each has one reader and one written form, in which the fields stand
in their declared order.
-/

namespace StoryPress

open Json (Tree Reading Field Record)

inductive DocumentKind where
  | project
  | timeline
  | scene
  | world
deriving DecidableEq, Inhabited

namespace DocumentKind

def name : DocumentKind → String
  | project => "project"
  | timeline => "timeline"
  | scene => "scene"
  | world => "world"

/-- The directory of the documents of a kind. -/
def directory : DocumentKind → String
  | project => "projects"
  | timeline => "timelines"
  | scene => "scenes"
  | world => "worlds"

end DocumentKind

structure Project where
  id : String := ""
  title : String := ""
  author : String := ""
  /-- The order of the scenes where no timeline is chosen. -/
  scenes : List String := []
  /-- The file it was read from. -/
  source : Option Path := none
deriving DecidableEq, Inhabited

namespace Project

/-- The title, or the id where the title is blank. -/
def displayTitle (p : Project) : String := if Text.isBlankText p.title then p.id else p.title

def record : Record Project where
  start := {}
  fields := [
    (Field.of "id" Tree.text fun v p => { p with id := v }).needed,
    Field.of "title" Tree.text fun v p => { p with title := v },
    Field.of "author" Tree.text fun v p => { p with author := v },
    Field.of "scenes" (Tree.list Tree.text) fun v p => { p with scenes := v }]

def read : Tree → Reading Project := record.read

def toJson (p : Project) : Json :=
  .object [("id", .string p.id), ("title", .string p.title), ("author", .string p.author),
    ("scenes", Json.ofStrings p.scenes)]

end Project

structure Timeline where
  id : String := ""
  title : Option String := none
  order : List Placement := []
  /-- The file it was read from. -/
  source : Option Path := none
deriving DecidableEq, Inhabited

namespace Timeline

def record : Record Timeline where
  start := {}
  fields := [
    (Field.of "id" Tree.text fun v t => { t with id := v }).needed,
    Field.of "title" (Tree.optional Tree.text) fun v t => { t with title := v },
    Field.of "scene_order" (Tree.list Placement.read) fun v t => { t with order := v }]

def read : Tree → Reading Timeline := record.read

def toJson (t : Timeline) : Json :=
  .object [("id", .string t.id), ("title", Json.ofText? t.title),
    ("scene_order", .array (t.order.map Placement.toJson))]

end Timeline

structure Scene where
  id : String := ""
  title : Option String := none
  pov : Option Json := none
  povs : List Json := []
  metadata : Option Json := none
  background : Option String := none
  portrait : Option String := none
  /-- Flat entries. -/
  dialogue : List Json := []
  /-- Entries with a content block. -/
  nodes : List Json := []
  /-- The file it was read from. -/
  source : Option Path := none
deriving DecidableEq, Inhabited

namespace Scene

def record : Record Scene where
  start := {}
  fields := [
    Field.of "id" Tree.text fun v s => { s with id := v },
    Field.of "title" (Tree.optional Tree.text) fun v s => { s with title := v },
    Field.of "pov" (Tree.optional Tree.value) fun v s => { s with pov := v },
    Field.of "povs" (Tree.list Tree.value) fun v s => { s with povs := v },
    Field.of "metadata" (Tree.optional Tree.value) fun v s => { s with metadata := v },
    Field.of "background" (Tree.optional Tree.text) fun v s => { s with background := v },
    Field.of "portrait" (Tree.optional Tree.text) fun v s => { s with portrait := v },
    Field.of "dialogue" (Tree.list Tree.value) fun v s => { s with dialogue := v },
    Field.of "nodes" (Tree.list Tree.value) fun v s => { s with nodes := v }]

def read : Tree → Reading Scene := record.read

def toJson (s : Scene) : Json :=
  .object [("id", .string s.id), ("title", Json.ofText? s.title), ("pov", s.pov.getD .null),
    ("povs", .array s.povs), ("metadata", s.metadata.getD .null),
    ("background", Json.ofText? s.background), ("portrait", Json.ofText? s.portrait),
    ("dialogue", .array s.dialogue), ("nodes", .array s.nodes)]

end Scene

structure World where
  id : String := ""
  name : Option String := none
  timeline : Option String := none
  defaultViewpoint : Option String := none
  povs : List ViewpointTag := []
  /-- The file it was read from. -/
  source : Option Path := none
deriving DecidableEq, Inhabited

namespace World

def record : Record World where
  start := {}
  fields := [
    (Field.of "id" Tree.text fun v w => { w with id := v }).needed,
    Field.of "name" (Tree.optional Tree.text) fun v w => { w with name := v },
    Field.of "timeline" (Tree.optional Tree.text) fun v w => { w with timeline := v },
    Field.of "default_pov" (Tree.optional Tree.text) fun v w => { w with defaultViewpoint := v },
    Field.of "povs" (Tree.list ViewpointTag.read) fun v w => { w with povs := v }]

def read : Tree → Reading World := record.read

def toJson (w : World) : Json :=
  .object [("id", .string w.id), ("name", Json.ofText? w.name), ("timeline", Json.ofText? w.timeline),
    ("default_pov", Json.ofText? w.defaultViewpoint), ("povs", .array (w.povs.map ViewpointTag.toJson))]

end World

end StoryPress
