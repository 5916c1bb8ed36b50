import StoryPress.Json.Record
import StoryPress.Naming.Slug
import StoryPress.Publish.Package
import StoryPress.Route.Mode
import StoryPress.Toml.Reader

/-!
# Project settings

The file `talewright.toml` names the project document and says from where it is exported, how, and for which
targets it is published. Paths in it are relative to its directory.
-/

namespace StoryPress

open Json (Tree Record Reading)

structure ProjectSettings where
  /-- The id of the project document. -/
  id : String := ""
  title : Option String := none
  author : String := ""
  version : String := "0.1.0"
deriving DecidableEq, Inhabited

structure ExportSettings where
  /-- Where the documents are. -/
  root : Path := ⟨"."⟩
  output : Path := ⟨"build/export"⟩
  assets : Path := ⟨"assets"⟩
  timeline : Option String := none
  world : Option String := none
  routeMode : RouteMode := .auto
  /-- Whether several routes may get a menu. -/
  switchMenu : Bool := true
  perSceneModules : Bool := false
deriving DecidableEq, Inhabited

structure PublishSettings where
  dist : Path := ⟨"dist"⟩
  icon : Option Path := none
  agreement : Option Path := none
  license : Option Path := none
  debug : Bool := false
  forks : Bool := true
  targets : List PublishTarget := []
deriving DecidableEq, Inhabited

structure Settings where
  project : ProjectSettings := {}
  exporting : ExportSettings := {}
  publishing : PublishSettings := {}
deriving DecidableEq, Inhabited

namespace Settings

def path (t : Tree) : Reading Path := Path.mk <$> t.text

/-- A mode by its own name; a table with that name as its only key and nothing below it says the same. -/
def routeMode : Tree → Reading RouteMode
  | .string (some name) | .object [(some name, .object [] .closed)] .closed
  | .object [(some name, .array [] _)] .closed =>
    match RouteMode.ofName? name with
    | some mode => .ok mode
    | none => .error .shape
  | t => t.mismatch

/-- A field that may be missing from an object, but must be reached by an array. -/
def placed {α : Type} (f : Json.Field α) : Json.Field α := { f with positional := true }

def projectRecord : Record ProjectSettings where
  start := {}
  fields := [
    (Json.Field.of "id" Tree.text fun v p => { p with id := v }).needed,
    Json.Field.of "title" (Tree.optional Tree.text) fun v p => { p with title := v },
    Json.Field.of "author" Tree.text fun v p => { p with author := v },
    Json.Field.of "version" Tree.text fun v p => { p with version := v }]

def exportRecord : Record ExportSettings where
  start := {}
  fields := [
    Json.Field.of "root" path fun v e => { e with root := v },
    Json.Field.of "output" path fun v e => { e with output := v },
    Json.Field.of "assets" path fun v e => { e with assets := v },
    placed (Json.Field.of "timeline" (Tree.optional Tree.text) fun v e => { e with timeline := v }),
    placed (Json.Field.of "world" (Tree.optional Tree.text) fun v e => { e with world := v }),
    Json.Field.of "route_mode" routeMode fun v e => { e with routeMode := v },
    Json.Field.of "switch_menu" Tree.flag fun v e => { e with switchMenu := v },
    Json.Field.of "per_scene_modules" Tree.flag fun v e => { e with perSceneModules := v }]

def targetRecord : Record PublishTarget where
  start := {}
  fields := [
    (Json.Field.of "name" Tree.text fun v t => { t with name := v }).needed,
    Json.Field.of "platforms" (Tree.list Tree.text) fun v t => { t with platforms := v }]

def publishRecord : Record PublishSettings where
  start := {}
  fields := [
    Json.Field.of "dist" path fun v p => { p with dist := v },
    placed (Json.Field.of "icon" (Tree.optional path) fun v p => { p with icon := v }),
    placed (Json.Field.of "eula" (Tree.optional path) fun v p => { p with agreement := v }),
    placed (Json.Field.of "license" (Tree.optional path) fun v p => { p with license := v }),
    Json.Field.of "debug" Tree.flag fun v p => { p with debug := v },
    Json.Field.of "forks" Tree.flag fun v p => { p with forks := v },
    Json.Field.of "targets" (Tree.list targetRecord.read) fun v p => { p with targets := v }]

def record : Record Settings where
  start := {}
  fields := [
    (Json.Field.of "project" projectRecord.read fun v s => { s with project := v }).needed,
    Json.Field.of "export" exportRecord.read fun v s => { s with exporting := v },
    Json.Field.of "publish" publishRecord.read fun v s => { s with publishing := v }]

/-- The name of the file. -/
def fileName : String := "talewright.toml"

/-- Reads settings; what is wrong with a text is not told. -/
def parse (text : String) : Option Settings := Toml.parse record.read text

/-- The first target whose name cannot be used, or is used before. -/
def targetProblem? (seen : List String) : List PublishTarget → Option String
  | [] => none
  | t :: ts =>
    if !Package.isTargetName t.name then
      some ("Invalid publish target name '" ++ t.name ++ "' in " ++ fileName)
    else if seen.contains t.name then some ("Duplicate publish target '" ++ t.name ++ "' in " ++ fileName)
    else targetProblem? (t.name :: seen) ts

/-- Why settings cannot be used. -/
def problem? (s : Settings) : Option String :=
  let id := s.project.id
  if (Text.trim id).isEmpty then some ("project.id must not be empty in " ++ fileName)
  else if !Naming.isSafeComponent id then
    some ("Invalid project.id '" ++ id ++ "' in " ++ fileName ++ " (must be usable as a file name)")
  else targetProblem? [] s.publishing.targets

/-- What is odd about settings that can be used. -/
def caution? (s : Settings) : Option String :=
  if !s.exporting.switchMenu && s.exporting.routeMode = .master then
    some ("route_mode=master but switch_menu=false. " ++
      "Multi-route exports will get neither a menu nor forks.")
  else none

/-- The title to show: the id where there is none. -/
def title (s : Settings) : String :=
  (s.project.title.filter fun t => !(Text.trim t).isEmpty).getD s.project.id

/-- The slug of the archives, with hyphens. -/
def slug (s : Settings) : String :=
  let slug := Text.mapChars (fun c => if c = '_' then '-' else c) (Naming.slug s.project.id)
  if slug.isEmpty then "talewright" else slug

/-- The directory to which the paths of a settings file are relative. -/
def directoryOf (file : Path) : Path := (file.parent?.filter fun p => !p.text.isEmpty).getD ⟨"."⟩

/-- A path of a settings file as it is used. -/
def resolve (file rel : Path) : Path := (directoryOf file).join rel.text

end Settings

end StoryPress
