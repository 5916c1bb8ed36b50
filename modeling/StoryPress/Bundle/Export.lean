import StoryPress.Bundle.Collected
import StoryPress.Bundle.Manifest
import StoryPress.Bundle.Sink
import StoryPress.Script.Render

/-!
# Exports

An export reads its documents, asks the gate, compiles the scenes, asks the rating, and plans and renders the
scripts: until then nothing is written, so every refusal leaves the files as they were. The artifacts are
then put into the bundle in a fixed order, and leftovers of earlier runs are pruned.
-/

namespace StoryPress

/-- Scenes with labels, and the pictures they use. -/
structure Compilation where
  catalog : AssetCatalog := {}
  scenes : List CompiledScene := []
  labels : OrderedMap String String := ∅
  book : LabelBook := {}
  warnings : List ExportWarning := []

namespace Compilation

/-- Registers the picture of a node. -/
def registerNode (fs : FileSystem) (index : AssetIndex) (scene : String) (c : Compilation)
    (node : SceneNode) : Except Failure Compilation :=
  let register (kind : AssetKind) (reference : String) : Except Failure Compilation := do
    let (catalog, outcome) := AssetCatalog.register fs index c.catalog kind reference scene
    let (_, warnings) ← outcome
    return { c with catalog := catalog, warnings := c.warnings ++ warnings }
  match node with
  | .background reference => register .background reference
  | .portrait reference => register .portrait reference
  | _ => .ok c

/-- Gives a scene its label and registers its pictures. -/
def addScene (fs : FileSystem) (index : AssetIndex) (c : Compilation) (s : Scene) :
    Except Failure Compilation := do
  let (label, book) := c.book.allocate s.id "scene_"
  let nodes := SceneNode.ofScene s
  let c := { c with
    book := book, labels := c.labels.insert s.id label
    scenes := c.scenes ++ [⟨s.id, label, s.title, nodes⟩] }
  nodes.foldlM (registerNode fs index s.id) c

/-- Compiles scenes in order. Warnings about pictures come before those about nodes and jumps. -/
def ofScenes (fs : FileSystem) (index : AssetIndex) (scenes : List Scene) : Except Failure Compilation := do
  let c ← scenes.foldlM (addScene fs index) {}
  return { c with warnings := c.warnings ++ c.scenes.flatMap (·.warnings c.labels) }

/-- All text that a reader of the scenes meets. -/
def ratedText (scenes : List CompiledScene) : String :=
  let parts (n : SceneNode) : List String :=
    match n with
    | .line (some speaker) text => [speaker ++ ": " ++ text]
    | .line none text => [text]
    | .choice prompt options => prompt.toList ++ options.map (·.text)
    | _ => []
  Text.joinWith "\n" (scenes.flatMap fun s => s.title.toList ++ s.nodes.flatMap parts)

def ratingRequest (options : ExportOptions) (project : Project) (c : Compilation) : RatingRequest where
  subject := project.id
  content := ratedText c.scenes
  mode := "export"
  acknowledged := options.acknowledged
  action := options.action
  ackToken := options.ackToken

/-- The scenes as they are placed, with their labels and viewpoints. -/
def placed (docs : Collected) (c : Compilation) : List PlacedScene :=
  docs.sequence.filterMap fun p =>
    match docs.scenes.find? (·.id == Text.trim p.scene) with
    | none => none
    | some s => (c.labels.get? s.id).map fun label => ⟨s.id, label, .ofScene s, .ofPlacement p⟩

/-- The ids and labels of the scenes. -/
def pairs (scenes : List CompiledScene) : List (String × String) := scenes.map fun s => (s.sceneId, s.label)

end Compilation

/-- What the scanner is shown. -/
structure BundleView where
  project : String
  output : Path
  scenes : List Scene
  /-- References and the paths of their files. -/
  assets : List (String × String)

/-- Everything that is settled before the first write. -/
structure Preparation where
  docs : Collected
  compiled : Compilation
  gate : GateDecision
  rating : RatingDecision
  plan : RoutePlan
  /-- The script of the bundle. -/
  master : RenderedScript
  /-- The routes that get a fork, with their scenes and scripts. -/
  forks : List (Route × List CompiledScene × RenderedScript)
  inputs : List StampInput

namespace Preparation

/-- Why the output directory cannot be used. -/
def checkOutput (fs : FileSystem) (options : ExportOptions) : Except Failure Unit :=
  let dir := options.output
  if !fs.contains dir then .ok ()
  else if !fs.isDirectory dir then .error (.unusableOutput dir "exists and is not a directory")
  else if options.force || options.dryRun then .ok ()
  else
    match fs.locate dir with
    | .error e => .error (.io dir e)
    | .ok l =>
      if fs.isEmptyDirectory l then .ok ()
      else .error (.unusableOutput dir "directory is not empty (use --force to overwrite)")

/-- What the script of the bundle is made of. -/
def masterPlan (options : ExportOptions) (c : Compilation) (placed : List PlacedScene) (plan : RoutePlan) :
    ScriptPlan where
  scenes := c.scenes
  startCalls := placed.map (·.label)
  menuRoutes := if plan.menu then plan.routes else []
  perSceneModules := options.perSceneModules

/-- What the script of a fork is made of: the scenes of its route, which `start` calls as they are placed. -/
def forkPlan (options : ExportOptions) (c : Compilation) (route : Route) : ScriptPlan where
  scenes := c.scenes.filter fun s => route.sceneIds.contains s.sceneId
  startCalls := route.labels
  perSceneModules := options.perSceneModules

/-- The scenes of a route and its script. -/
def fork (options : ExportOptions) (c : Compilation) (route : Route) :
    Route × List CompiledScene × RenderedScript :=
  let plan := forkPlan options c route
  (route, plan.scenes, plan.render c.catalog c.labels)

/-- Reads and compiles the scenes, once the gate lets the export pass. -/
def compile (fs : FileSystem) (options : ExportOptions) (gate : GateDecision) (docs : Collected) :
    Except Failure Compilation :=
  if gate.allow then Compilation.ofScenes fs (AssetIndex.build fs options.assets) docs.scenes
  else .error (.blocked "gate" (Json.normalize gate.toJson))

/-- Settles an export without writing anything. -/
def run (fs : FileSystem) (store : Store) (options : ExportOptions) (reviewers : Reviewers BundleView) :
    Except Failure Preparation := do
  let docs ← Collected.load fs store options
  let gate := reviewers.gate options.action
  let compiled ← compile fs options gate docs
  let rating := reviewers.rating (compiled.ratingRequest options docs.project)
  if !rating.allowed then .error (.blocked "rating" (Json.normalize rating.toJson))
  checkOutput fs options
  let placed := compiled.placed docs
  let plan := RoutePlan.ofSequence placed compiled.book options.routeMode options.switchMenu docs.world
  let master := (masterPlan options compiled placed plan).render compiled.catalog compiled.labels
  let forks := if plan.forks then plan.routes.map (fork options compiled) else []
  let inputs ← docs.stampInputs fs
  return { docs, compiled, gate, rating, plan, master, forks, inputs }

/-- The manifest of the bundle or of a fork. -/
def manifest (p : Preparation) (scope : ManifestScope) : ExportManifest :=
  let keep (u : AssetUsage) : Bool :=
    match scope.aliases with
    | some names => names.contains u.alias_
    | none => true
  { project := p.docs.project, timeline := p.docs.timeline, world := p.docs.world, plan := p.plan
    scope := scope
    backgrounds := (p.compiled.catalog.used .background).filter keep
    portraits := (p.compiled.catalog.used .portrait).filter keep
    missingBackgrounds := p.compiled.catalog.missing .background
    missingPortraits := p.compiled.catalog.missing .portrait
    gate := p.gate, rating := p.rating, warnings := p.compiled.warnings }

/-- The manifest of the whole bundle. -/
def masterManifest (p : Preparation) : ExportManifest :=
  p.manifest
    { labels := .ofList (Compilation.pairs p.compiled.scenes), modules := p.master.modules.map (·.path)
      routes := p.plan.routes, menu := p.plan.menu
      forks := p.forks.map fun (route, _) => ForkDescriptor.ofRoute route, aliases := none }

/-- The manifest of a fork. -/
def forkManifest (p : Preparation) (route : Route) (scenes : List CompiledScene) (script : RenderedScript) :
    ExportManifest :=
  p.manifest
    { labels := .ofList (Compilation.pairs scenes), modules := script.modules.map (·.path)
      routes := [route], menu := false, forks := [], aliases := some script.aliases }

/-- A file of the bundle: its path and what is put into it. -/
abbrev Artifact := String × Content

/-- An artifact's text and the stamp beside it; the stamp names the artifact by `name`. -/
def stamped (p : Preparation) (path name text : String) : List Artifact :=
  [(path, .text text), (Layout.stamp path, .text (Stamp.ofBytes name text.toUTF8 p.inputs).text)]

/-- The copies of the pictures with the given aliases, in the order of their paths. -/
def images (p : Preparation) (aliases : List String) : List (String × Path) :=
  let used := aliases.filterMap p.compiled.catalog.byAlias?
  (OrderedMap.ofList (used.map fun u => (u.output, u.source))).entries

/-- The game tree below `dir`: pictures, modules, the script and its stamp. -/
def gameTree (p : Preparation) (dir : String) (script : RenderedScript) : List Artifact :=
  (p.images script.aliases).map (fun (path, source) => (Layout.under dir path, Content.copyOf source)) ++
    script.modules.map (fun m => (Layout.under dir m.path, Content.text m.text)) ++
    p.stamped (Layout.under dir Layout.script) Layout.script script.script

/-- The file of the manifest in a directory of the bundle. -/
def manifestFile (options : ExportOptions) (dir : String) : Path :=
  options.output.join (Layout.under dir Layout.exportManifest)

/-- What a file holds from an earlier run, if that is text. -/
def earlierText (fs : FileSystem) (file : Path) : Option String :=
  if fs.isFile file then (fs.readWithin maxDocumentBytes file).toOption.bind Bytes.text? else none

/-- The text of the manifest in a directory of the bundle, where a file may hold an earlier one. -/
def manifestText (fs : FileSystem) (options : ExportOptions) (now : Timestamp) (dir : String)
    (m : ExportManifest) : String :=
  (m.toJson (m.timeFor (earlierText fs (manifestFile options dir)) options.generatedAt now)).pretty

/-- The manifest in a directory of the bundle, and its stamp. -/
def manifestFiles (p : Preparation) (dir text : String) : List Artifact :=
  p.stamped (Layout.under dir Layout.exportManifest) Layout.exportManifest text

def labelManifest (p : Preparation) : Json :=
  .array ((LabelRow.ofScenes (Compilation.pairs p.compiled.scenes) p.plan.routes p.plan.catalog).map
    LabelRow.toJson)

/-- The files of a fork, with a manifest of the given text. -/
def forkFiles (p : Preparation) (text : String → ExportManifest → String)
    (fork : Route × List CompiledScene × RenderedScript) : List Artifact :=
  let dir := Layout.fork fork.1.slug
  p.gameTree dir fork.2.2 ++ p.manifestFiles dir (text dir (p.forkManifest fork.1 fork.2.1 fork.2.2))

/-- All files of the bundle in the order in which they are put there, with manifests of the given texts. -/
def files (p : Preparation) (text : String → ExportManifest → String) : List Artifact :=
  p.gameTree "" p.master ++ p.forks.flatMap (p.forkFiles text) ++
    [(Layout.labelManifest, .text p.labelManifest.pretty)] ++ p.manifestFiles "" (text "" p.masterManifest)

/-- All files of the bundle, with manifests that follow what the files hold. -/
def artifacts (fs : FileSystem) (options : ExportOptions) (now : Timestamp) (p : Preparation) : List Artifact :=
  p.files (manifestText fs options now)

/-- What the scanner is shown of the bundle. -/
def view (options : ExportOptions) (p : Preparation) : BundleView where
  project := p.docs.project.id
  output := options.output
  scenes := p.docs.scenes
  assets := p.compiled.catalog.pairs

end Preparation

/-- The fork of a route in the bundle. -/
structure ForkResult where
  route : Route
  dir : Path
  script : Path
  manifest : Path

structure ExportResult where
  options : ExportOptions
  prepared : Preparation
  /-- The text of the manifest. -/
  manifest : String
  forks : List ForkResult
  /-- What a dry run would change; empty otherwise. -/
  changes : List Change
  findings : List Finding

namespace ExportResult

def script (r : ExportResult) : Path := r.options.output.join Layout.script

def modules (r : ExportResult) : List Path :=
  r.prepared.master.modules.map fun m => r.options.output.join m.path

def manifestPath (r : ExportResult) : Path := r.options.output.join Layout.exportManifest

def labelManifestPath (r : ExportResult) : Path := r.options.output.join Layout.labelManifest

def catalog (r : ExportResult) : AssetCatalog := r.prepared.compiled.catalog

/-- The changes of a dry run that are any. -/
def pending (r : ExportResult) : List Change := r.changes.filter fun c => c.status != .unchanged

end ExportResult

namespace Export

/-- Puts artifacts into the bundle one after the other. -/
def putAll : List Preparation.Artifact → Work Unit
  | [] => pure ()
  | (path, content) :: rest => do
    let _ ← Sink.put path content
    putAll rest

/-- Prunes directories one after the other. -/
def pruneAll : List String → Work Unit
  | [] => pure ()
  | dir :: rest => do
    let _ ← Sink.prune dir
    pruneAll rest

/-- Puts a manifest and its stamp into a directory of the bundle; gives its text. The time of a manifest that
the directory holds by then can be kept. -/
def putManifest (p : Preparation) (options : ExportOptions) (now : Timestamp) (dir : String)
    (m : ExportManifest) : Work String := do
  let text ← Sink.reading fun fs => .ok (Preparation.manifestText fs options now dir m)
  putAll (p.manifestFiles dir text)
  return text

/-- Puts the trees of the forks in place one after the other. -/
def putForks (p : Preparation) (options : ExportOptions) (now : Timestamp) :
    List (Route × List CompiledScene × RenderedScript) → Work Unit
  | [] => pure ()
  | (route, scenes, script) :: rest => do
    let dir := Layout.fork route.slug
    putAll (p.gameTree dir script)
    let _ ← putManifest p options now dir (p.forkManifest route scenes script)
    putForks p options now rest

/-- Puts the files of the bundle in place and prunes what is left over; gives the text of the manifest. -/
def write (p : Preparation) (options : ExportOptions) (now : Timestamp) : Work String := do
  putAll (p.gameTree "" p.master)
  putForks p options now p.forks
  putAll [(Layout.labelManifest, .text p.labelManifest.pretty)]
  let text ← putManifest p options now "" p.masterManifest
  pruneAll Layout.generated
  return text

def forkResult (options : ExportOptions) (route : Route) : ForkResult :=
  let dir := Layout.fork route.slug
  { route := route, dir := options.output.join dir
    script := options.output.join (Layout.under dir Layout.script)
    manifest := options.output.join (Layout.under dir Layout.exportManifest) }

/-- Exports a project. The files come back as they are left, also by a failure. -/
def run (fs : FileSystem) (store : Store) (options : ExportOptions) (reviewers : Reviewers BundleView)
    (now : Timestamp) : Except Failure ExportResult × FileSystem :=
  match Preparation.run fs store options reviewers with
  | .error e => (.error e, fs)
  | .ok p =>
    let sink : Sink := { root := options.output, dryRun := options.dryRun }
    match (write p options now).run.run ⟨fs, sink⟩ with
    | (.error e, w) => (.error e, w.files)
    | (.ok manifest, w) =>
      (.ok {
        options := options
        prepared := p
        manifest := manifest
        forks := p.forks.map fun (route, _) => forkResult options route
        changes := w.sink.changes
        findings := if options.dryRun then [] else reviewers.scan (p.view options) }, w.files)

/-- What the reviewers of an export are asked, as far as it comes. -/
structure Asked where
  gate : Option String := none
  rating : Option RatingRequest := none
  scan : Option BundleView := none

/-- The questions that an export with the given result has asked. -/
def asked (fs : FileSystem) (store : Store) (options : ExportOptions) (reviewers : Reviewers BundleView)
    (result : Except Failure ExportResult) : Asked :=
  match Collected.load fs store options with
  | .error _ => {}
  | .ok docs =>
    let compiled := (Preparation.compile fs options (reviewers.gate options.action) docs).toOption
    { gate := some options.action
      rating := compiled.map fun c => c.ratingRequest options docs.project
      scan :=
        match result with
        | .ok r => if options.dryRun then none else some (r.prepared.view options)
        | .error _ => none }

end Export

end StoryPress
