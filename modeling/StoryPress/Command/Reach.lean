import StoryPress.Command.Run

/-!
# What a command can reach

The paths at and below which a command may read or write, so that only these need to be known.
-/

namespace StoryPress

namespace Invocation

/-- The file with the settings. -/
def manifest : Invocation → Path
  | .export_ i => i.manifest
  | .publish i => i.manifest
  | .check i => i.manifest

/-- The paths that settings name. -/
def settingsPaths (file : Path) (s : Settings) : List Path :=
  let p := s.publishing
  let documents := Settings.resolve file s.exporting.root
  ([DocumentKind.project, .timeline, .scene, .world].map fun k => documents.join k.directory) ++
    ([s.exporting.output, s.exporting.assets, p.dist] ++ p.icon.toList ++ p.agreement.toList ++
      p.license.toList).map (Settings.resolve file)

/-- The paths that are given on the command line. -/
def givenPaths : Invocation → List Path
  | .export_ i => i.output.toList
  | .publish i => i.exportDir.toList ++ i.dist.toList
  | .check _ => []

/-- All paths that a command may reach, as far as the text of its settings says. -/
def paths (i : Invocation) (settings : String) : List Path :=
  match Settings.parse settings with
  | none => []
  | some s => settingsPaths i.manifest s ++ i.givenPaths

end Invocation

end StoryPress
