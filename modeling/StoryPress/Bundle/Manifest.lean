import StoryPress.Asset.Catalog
import StoryPress.Bundle.Review
import StoryPress.Document.Basic
import StoryPress.Route.Plan
import StoryPress.Time.Timestamp

/-!
# Manifests

The export manifest of a bundle, or of one fork, records the documents, the script, the viewpoints and the
pictures. The label manifest has a row for each scene. A manifest keeps the time of the one before it if
nothing else has changed.
-/

namespace StoryPress

/-- Where the tree of a fork is, relative to the bundle. -/
structure ForkDescriptor where
  viewpoint : String := ""
  slug : String := ""
  path : String := ""
  script : String := ""
  manifest : String := ""
deriving DecidableEq, Inhabited

namespace ForkDescriptor

open Json (Tree Field Record)

def record : Record ForkDescriptor where
  start := {}
  fields := [
    (Field.of "pov_id" Tree.text fun v d => { d with viewpoint := v }).needed,
    (Field.of "slug" Tree.text fun v d => { d with slug := v }).needed,
    (Field.of "path" Tree.text fun v d => { d with path := v }).needed,
    (Field.of "script" Tree.text fun v d => { d with script := v }).needed,
    (Field.of "manifest" Tree.text fun v d => { d with manifest := v }).needed]

def toJson (d : ForkDescriptor) : Json :=
  .object [("pov_id", .string d.viewpoint), ("slug", .string d.slug), ("path", .string d.path),
    ("script", .string d.script), ("manifest", .string d.manifest)]

/-- The descriptor of the fork of a route. -/
def ofRoute (r : Route) : ForkDescriptor :=
  let dir := Layout.fork r.slug
  ⟨r.viewpoint, r.slug, dir, Layout.under dir Layout.script, Layout.under dir Layout.exportManifest⟩

end ForkDescriptor

/-- A file in use, as a manifest records it. -/
def AssetUsage.recordJson (u : AssetUsage) : Json :=
  let size (n : Option Nat) : Json := (n.map Json.ofNat).getD .null
  .object [("alias", .string u.alias_), ("logical_name", .string u.logical), ("path", .string u.relative),
    ("output_path", .string u.output), ("sha256", .string u.sha256), ("size", Json.ofNat u.size),
    ("width", size (u.dimensions.map (·.1))), ("height", size (u.dimensions.map (·.2))),
    ("license", Json.ofText? u.origin.license), ("author", Json.ofText? u.origin.author),
    ("source", Json.ofText? u.origin.source), ("resolved_by", .string u.step.name),
    ("fallback", match u.fallback with
      | some f => .object [("requested", .string f.requested), ("substituted", .string f.substituted)]
      | none => .null)]

/-- What a manifest covers: the whole bundle, or one fork. -/
structure ManifestScope where
  /-- The labels of the scenes by their ids. -/
  labels : OrderedMap String String
  /-- The script modules. -/
  modules : List String
  routes : List Route
  menu : Bool
  forks : List ForkDescriptor
  /-- The aliases of the pictures to record; nothing stands for all. -/
  aliases : Option (List String)

structure ExportManifest where
  project : Project
  timeline : Option Timeline
  world : Option World
  plan : RoutePlan
  scope : ManifestScope
  /-- The pictures that are recorded. -/
  backgrounds : List AssetUsage
  portraits : List AssetUsage
  missingBackgrounds : List String
  missingPortraits : List String
  gate : GateDecision
  rating : RatingDecision
  warnings : List ExportWarning

namespace ExportManifest

private def sourceJson (p : Option Path) : Json := Json.ofText? (p.map (·.text))

/-- The fields before and after the time. -/
def fieldsBefore (m : ExportManifest) : List (String × Json) := [
  ("project", .object [("id", .string m.project.id), ("title", .string m.project.displayTitle),
    ("author", .string m.project.author), ("source", sourceJson m.project.source)]),
  ("timeline", match m.timeline with
    | some t =>
      .object [("id", .string t.id), ("title", Json.ofText? t.title), ("source", sourceJson t.source)]
    | none => .null)]

def fieldsAfter (m : ExportManifest) : List (String × Json) := [
  ("script", .object [("path", .string Layout.script),
    ("labels", .object (m.scope.labels.entries.map fun (id, l) => (id, .string l))),
    ("modules", Json.ofStrings m.scope.modules)]),
  ("pov", .object [("mode", .string m.plan.mode.name), ("menu_enabled", .bool m.scope.menu),
    ("active", Json.ofStrings (m.scope.routes.map (·.viewpoint))),
    ("default", Json.ofText? m.plan.preferred), ("routes", .array (m.scope.routes.map Route.toJson)),
    ("forks", .array (m.scope.forks.map ForkDescriptor.toJson))]),
  ("worlds", .object [("selected", match m.world with
    | some w => .object [("id", .string w.id), ("name", Json.ofText? w.name),
        ("timeline", Json.ofText? w.timeline), ("default_pov", Json.ofText? w.defaultViewpoint),
        ("source", sourceJson w.source)]
    | none => .null)]),
  ("assets", .object [("backgrounds", .array (m.backgrounds.map AssetUsage.recordJson)),
    ("portraits", .array (m.portraits.map AssetUsage.recordJson))]),
  ("missing_assets", .object [("backgrounds", Json.ofStrings m.missingBackgrounds),
    ("portraits", Json.ofStrings m.missingPortraits)]),
  ("gate", m.gate.toJson), ("rating", m.rating.toJson),
  ("warnings", .array (m.warnings.map ExportWarning.toJson))]

/-- The name of the time in a manifest. -/
def timeKey : String := "generated_at"

/-- The manifest with a time. -/
def toJson (m : ExportManifest) (time : String) : Json :=
  .object (m.fieldsBefore ++ [(timeKey, .string time)] ++ m.fieldsAfter)

/-- All that is said besides the time, as a value. -/
def substance (m : ExportManifest) : Json := Json.normalize (.object (m.fieldsBefore ++ m.fieldsAfter))

/-- The time of an earlier manifest that says the same otherwise. -/
def reusableTime? (m : ExportManifest) (previous : String) : Option String :=
  match Json.parse Json.Tree.value previous with
  | .ok v@(.object fields) =>
    match v.field? timeKey with
    | some (.string time) =>
      if m.substance = .object (fields.filter fun (k, _) => k != timeKey) then some time else none
    | _ => none
  | _ => none

/-- The time of a manifest: a pinned one, the time of an earlier manifest that says the same, or now. -/
def timeFor (m : ExportManifest) (previous : Option String) (pinned : Option Timestamp) (now : Timestamp) :
    String :=
  match pinned with
  | some t => t.text
  | none => ((previous.bind m.reusableTime?).getD now.text)

end ExportManifest

/-- A row of the label manifest. -/
structure LabelRow where
  sceneId : String
  label : String
  povIds : List String
  povNames : List String
deriving DecidableEq, Inhabited

namespace LabelRow

def toJson (r : LabelRow) : Json :=
  .object [("scene_id", .string r.sceneId), ("label", .string r.label), ("pov_ids", Json.ofStrings r.povIds),
    ("pov_names", Json.ofStrings r.povNames)]

/-- The rows of scenes, with the viewpoints whose routes play them. -/
def ofScenes (labels : List (String × String)) (routes : List Route) (catalog : ViewpointCatalog) :
    List LabelRow :=
  labels.map fun (sceneId, label) =>
    let ids := (routes.filter fun r => r.sceneIds.contains sceneId).map (·.viewpoint)
    ⟨sceneId, label, ids, ids.map fun id => ((catalog.find? id).map (·.display)).getD id⟩

end LabelRow

end StoryPress
