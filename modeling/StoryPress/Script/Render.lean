import StoryPress.Route.Plan
import StoryPress.Script.Compile

/-!
# Scripts

A script declares its pictures, defines `start` and, with a menu, the menu and the entry of each route, and
then the blocks of its scenes. The blocks stand in the same file, or in a module each.
-/

namespace StoryPress

/-- What a script is made of. -/
structure ScriptPlan where
  /-- Distinct scenes in order. -/
  scenes : List CompiledScene := []
  /-- The labels that `start` calls without a menu. -/
  startCalls : List String := []
  /-- The routes of the menu; without routes there is no menu. -/
  menuRoutes : List Route := []
  perSceneModules : Bool := false

/-- A file with the block of one scene. -/
structure ScriptModule where
  path : String
  label : String
  text : String
deriving DecidableEq, Inhabited

structure RenderedScript where
  script : String
  modules : List ScriptModule
  /-- Every label that the script and its modules define. -/
  labels : List String
  /-- The aliases that the scenes use, in byte order. -/
  aliases : List String
deriving DecidableEq, Inhabited

namespace ScriptPlan

/-- The first line of every file. -/
def header : String := "# Generated by talewright. Do not edit by hand.\n"

def menuCaption : String := "Choose a viewpoint."

/-- A label that calls others in order. -/
def callLines (label : String) (calls : List String) : List Line :=
  [⟨0, .label label⟩] ++ (calls.map fun c => ⟨1, .call c⟩) ++ [⟨1, .finish⟩]

/-- The menu of the routes. -/
def menuLines (routes : List Route) : List Line :=
  [⟨0, .label menuLabel⟩, ⟨1, .menu⟩, ⟨2, .say none menuCaption⟩] ++
    routes.flatMap fun r => [⟨2, .option r.display⟩, ⟨3, .jump r.entry⟩]

/-- The sections from `start` to the blocks of the scenes. -/
def entrySections (p : ScriptPlan) : List (List Line) :=
  if p.menuRoutes.isEmpty then [callLines "start" p.startCalls]
  else
    [[⟨0, .label "start"⟩, ⟨1, .jump menuLabel⟩], menuLines p.menuRoutes] ++
      p.menuRoutes.map fun r => callLines r.entry r.labels

/-- The labels that the sections before the blocks define. -/
def entryLabels (p : ScriptPlan) : List String :=
  "start" :: if p.menuRoutes.isEmpty then [] else menuLabel :: p.menuRoutes.map (·.entry)

def targets (labels : OrderedMap String String) (p : ScriptPlan) : JumpTargets :=
  ⟨labels, p.scenes.map (·.label)⟩

/-- The blocks of the scenes in order. -/
def blocks (catalog : AssetCatalog) (labels : OrderedMap String String) (p : ScriptPlan) : List (List Line) :=
  p.scenes.map (·.lines catalog (p.targets labels))

/-- The aliases that lines use, each once, in byte order. -/
def aliasesOf (lines : List Line) : List String :=
  (OrderedMap.ofList (lines.filterMap fun l => l.statement.alias?.map fun a => (a, ()))).keys

/-- The declarations of the pictures with the given aliases. -/
def declarations (catalog : AssetCatalog) (aliases : List String) : List Line :=
  aliases.filterMap fun a =>
    (catalog.byAlias? a).map fun u => ⟨0, .image a (Layout.imagesDir ++ "/" ++ u.relative)⟩

/-- The text of a file with the given sections, an empty line between two. -/
def fileText (sections : List (List Line)) : String :=
  header ++ "\n" ++ Text.joinWith "\n" (sections.map printLines)

/-- The aliases that the blocks of the scenes use. -/
def aliases (catalog : AssetCatalog) (labels : OrderedMap String String) (p : ScriptPlan) : List String :=
  aliasesOf (p.blocks catalog labels).flatten

/-- The sections of the main file: the pictures if there are any, the way from `start`, and the blocks if they
have no files of their own. -/
def sections (catalog : AssetCatalog) (labels : OrderedMap String String) (p : ScriptPlan) : List (List Line) :=
  let declared := declarations catalog (p.aliases catalog labels)
  (if declared.isEmpty then [] else [declared]) ++ p.entrySections ++
    if p.perSceneModules then [] else p.blocks catalog labels

/-- Renders a script. -/
def render (catalog : AssetCatalog) (labels : OrderedMap String String) (p : ScriptPlan) : RenderedScript where
  script := fileText (p.sections catalog labels)
  modules :=
    if p.perSceneModules then
      (p.scenes.zip (p.blocks catalog labels)).map fun (s, lines) =>
        ⟨Layout.sceneModule s.label, s.label, fileText [lines]⟩
    else []
  labels := p.entryLabels ++ p.scenes.map (·.label)
  aliases := p.aliases catalog labels

end ScriptPlan

end StoryPress
