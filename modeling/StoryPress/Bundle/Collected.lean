import StoryPress.Bundle.Stamp
import StoryPress.Document.Store
import StoryPress.Route.Mode
import StoryPress.Time.Timestamp

/-!
# Collected documents

The documents of one export: the project, the world and the timeline that are chosen, and every placed scene
once, in the order of first placement.
-/

namespace StoryPress

structure ExportOptions where
  project : String
  timeline : Option String := none
  world : Option String := none
  output : Path
  assets : Path
  force : Bool := false
  dryRun : Bool := false
  perSceneModules : Bool := false
  routeMode : RouteMode := .auto
  switchMenu : Bool := true
  /-- What the gate and the rating are told. -/
  action : String := "export"
  acknowledged : Bool := false
  ackToken : Option String := none
  /-- Pins the time in the manifests. -/
  generatedAt : Option Timestamp := none

structure Collected where
  project : Project
  world : Option World
  timeline : Option Timeline
  sequence : List Placement
  scenes : List Scene

namespace Collected

/-- The ids of the placed scenes, trimmed, each at its first place. -/
def sceneIds (sequence : List Placement) : List String :=
  sequence.foldl (fun ids p =>
    let id := Text.trim p.scene
    if ids.contains id then ids else ids ++ [id]) []

/-- Reads the scenes one after the other. -/
def loadScenes (fs : FileSystem) (store : Store) : List String → Except Failure (List Scene)
  | [] => .ok []
  | id :: ids => do
    let s ← store.scene fs id
    let rest ← loadScenes fs store ids
    return s :: rest

/-- Reads a document that is chosen by its id. -/
def chosen {α : Type} (load : String → Except Failure α) :
    Option String → Except Failure (Option α)
  | none => .ok none
  | some id => some <$> load id

/-- Reads the documents of an export. The options choose the timeline before the world does. -/
def load (fs : FileSystem) (store : Store) (options : ExportOptions) : Except Failure Collected := do
  let project ← store.project fs options.project
  let world ← chosen (store.world fs) options.world
  let timeline ← chosen (store.timeline fs) (options.timeline.orElse fun _ => world.bind (·.timeline))
  let sequence :=
    match timeline with
    | some t => t.order
    | none => project.scenes.map Placement.bare
  let scenes ← loadScenes fs store (sceneIds sequence)
  return { project, world, timeline, sequence, scenes }

/-- The inputs that the stamps of the bundle name. -/
def stampInputs (fs : FileSystem) (c : Collected) : Except Failure (List StampInput) := do
  let p := c.project
  let project ← StampInput.ofDocument fs .project p.id p.source p.toJson
  let timeline ← c.timeline.toList.mapM fun t => StampInput.ofDocument fs .timeline t.id t.source t.toJson
  let world ← c.world.toList.mapM fun w => StampInput.ofDocument fs .world w.id w.source w.toJson
  let scenes ← c.scenes.mapM fun s => StampInput.ofDocument fs .scene s.id s.source s.toJson
  return project :: (timeline ++ world ++ scenes)

end Collected

end StoryPress
