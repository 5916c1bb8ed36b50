import StoryPress.Bundle.Collected
import StoryPress.Command.Arguments
import StoryPress.Settings.Basic

/-!
# Invocations

The three commands with their options, and the options of exports and packages that follow from the settings
and from what is given on the command line, which goes before the settings.
-/

namespace StoryPress

/-- Settings are read from this file unless another is given. -/
private def manifestOption : OptionSpec := { name := "manifest", short := some 'm', expects := .path }

private def manifestFile (g : Given) : Path := ⟨(g.value? "manifest").getD Settings.fileName⟩

structure ExportInvocation where
  manifest : Path := ⟨Settings.fileName⟩
  output : Option Path := none
  timeline : Option String := none
  world : Option String := none
  routeMode : Option RouteMode := none
  noSwitchMenu : Bool := false
  perSceneModules : Bool := false
  force : Bool := false
  dryRun : Bool := false
  /-- Whether a dry run prints the text of the changes. -/
  diff : Bool := false
  acknowledged : Bool := false
  ackToken : Option String := none
deriving DecidableEq, Inhabited

namespace ExportInvocation

def specs : List OptionSpec := [
  manifestOption,
  { name := "output", short := some 'o', expects := .path },
  { name := "timeline", expects := .text },
  { name := "world", expects := .text },
  { name := "route-mode", expects := .mode },
  { name := "no-switch-menu" },
  { name := "per-scene-modules" },
  { name := "force", short := some 'f' },
  { name := "dry-run" },
  { name := "diff" },
  { name := "ack-rating" },
  { name := "ack-token", expects := .text }]

def ofGiven (g : Given) : ExportInvocation where
  manifest := manifestFile g
  output := (g.value? "output").map Path.mk
  timeline := g.value? "timeline"
  world := g.value? "world"
  routeMode := (g.value? "route-mode").bind fun w => (RouteMode.parse w).toOption
  noSwitchMenu := g.has "no-switch-menu"
  perSceneModules := g.has "per-scene-modules"
  force := g.has "force"
  dryRun := g.has "dry-run"
  diff := g.has "diff"
  acknowledged := g.has "ack-rating"
  ackToken := g.value? "ack-token"

def parse (words : List String) : Except Stop ExportInvocation := ofGiven <$> readArguments specs words

/-- What is exported, and how. -/
def options (i : ExportInvocation) (s : Settings) (pinned : Option Timestamp) : ExportOptions :=
  let e := s.exporting
  { project := s.project.id
    timeline := i.timeline.orElse fun _ => e.timeline
    world := i.world.orElse fun _ => e.world
    output := i.output.getD (Settings.resolve i.manifest e.output)
    assets := Settings.resolve i.manifest e.assets
    force := i.force
    dryRun := i.dryRun
    perSceneModules := e.perSceneModules || i.perSceneModules
    routeMode := i.routeMode.getD e.routeMode
    switchMenu := e.switchMenu && !i.noSwitchMenu
    acknowledged := i.acknowledged
    ackToken := i.ackToken
    generatedAt := pinned }

end ExportInvocation

structure PublishInvocation where
  manifest : Path := ⟨Settings.fileName⟩
  /-- The bundle to be packaged. -/
  exportDir : Option Path := none
  dist : Option Path := none
  /-- The names of the targets to be packaged; all if none is given. -/
  targets : List String := []
  /-- Whether an export comes first. -/
  exportFirst : Bool := false
  debug : Bool := false
  noForks : Bool := false
  dryRun : Bool := false
deriving DecidableEq, Inhabited

namespace PublishInvocation

def specs : List OptionSpec := [
  manifestOption,
  { name := "export-dir", expects := .path },
  { name := "dist", short := some 'd', expects := .path },
  { name := "target", short := some 't', expects := .text, repeatable := true },
  { name := "export" },
  { name := "debug" },
  { name := "no-forks" },
  { name := "dry-run" }]

def ofGiven (g : Given) : PublishInvocation where
  manifest := manifestFile g
  exportDir := (g.value? "export-dir").map Path.mk
  dist := (g.value? "dist").map Path.mk
  targets := g.values "target"
  exportFirst := g.has "export"
  debug := g.has "debug"
  noForks := g.has "no-forks"
  dryRun := g.has "dry-run"

def parse (words : List String) : Except Stop PublishInvocation := ofGiven <$> readArguments specs words

/-- The bundle to be packaged. -/
def exportRoot (i : PublishInvocation) (s : Settings) : Path :=
  i.exportDir.getD (Settings.resolve i.manifest s.exporting.output)

/-- The forced export that comes first. -/
def exportInvocation (i : PublishInvocation) (s : Settings) : ExportInvocation :=
  { manifest := i.manifest, output := some (i.exportRoot s), force := true }

/-- What is packaged, or a target that is asked for and unknown. -/
def options (i : PublishInvocation) (s : Settings) (exportRoot : Path) : Except String PackageOptions :=
  let p := s.publishing
  let known := p.targets.map (·.name)
  match i.targets.find? fun t => !known.contains t with
  | some t =>
    .error ("Unknown publish target '" ++ t ++ "' (configured: " ++
      (if known.isEmpty then "none" else Text.joinWith ", " known) ++ ")")
  | none =>
    let resolved (file : Option Path) : Option Path := file.map (Settings.resolve i.manifest)
    .ok {
      slug := s.slug
      title := s.title
      version := s.project.version
      author := s.project.author
      exportRoot := exportRoot
      dist := i.dist.getD (Settings.resolve i.manifest p.dist)
      targets := p.targets.filter fun t => i.targets.isEmpty || i.targets.contains t.name
      icon := resolved p.icon
      agreement := resolved p.agreement
      license := resolved p.license
      debug := p.debug || i.debug
      forks := p.forks && !i.noForks
      dryRun := i.dryRun }

end PublishInvocation

structure CheckInvocation where
  manifest : Path := ⟨Settings.fileName⟩
  diff : Bool := false
  /-- Whether warnings and pending changes are a failure. -/
  strict : Bool := false
deriving DecidableEq, Inhabited

namespace CheckInvocation

def specs : List OptionSpec := [manifestOption, { name := "diff" }, { name := "strict" }]

def ofGiven (g : Given) : CheckInvocation := ⟨manifestFile g, g.has "diff", g.has "strict"⟩

def parse (words : List String) : Except Stop CheckInvocation := ofGiven <$> readArguments specs words

/-- The dry run that a check looks at. -/
def exportInvocation (i : CheckInvocation) : ExportInvocation :=
  { manifest := i.manifest, dryRun := true, diff := i.diff }

end CheckInvocation

inductive Invocation where
  | export_ (i : ExportInvocation)
  | publish (i : PublishInvocation)
  | check (i : CheckInvocation)
deriving DecidableEq, Inhabited

namespace Invocation

def commands : List String := ["export", "publish", "check"]

/-- What the word `help` in front of others asks for. -/
def helpOn : List String → Stop
  | [] => .help
  | [c] => if (commands ++ ["help"]).contains c then .help else .fault .noCommand
  | _ => .fault .noCommand

/-- Reads a command line. -/
def parse : List String → Except Stop Invocation
  | [] => .error (.fault .noCommand)
  | w :: words =>
    if w = "export" then export_ <$> ExportInvocation.parse words
    else if w = "publish" then publish <$> PublishInvocation.parse words
    else if w = "check" then check <$> CheckInvocation.parse words
    else if w = "help" then .error (helpOn words)
    else if w = "--help" then .error .help
    else if w = "--version" then .error .version
    else
      match w.toList with
      | '-' :: 'h' :: _ => .error .help
      | '-' :: 'V' :: _ => .error .version
      | _ => .error (.fault .noCommand)

end Invocation

end StoryPress
