import StoryPress.Command.Invocation
import StoryPress.Command.Report
import StoryPress.Time.Pinned

/-!
# Running commands

A command is a function of the files, the arguments, the variable that pins the time, and the clock. It
gives the files as they are left, what it prints, and whether it failed.
-/

namespace StoryPress

/-- Why a command fails: a message, and what lies behind it. -/
structure CommandError where
  message : String
  causes : List String := []
deriving DecidableEq, Inhabited

/-- The files, and what has been printed so far. -/
structure Console where
  files : FileSystem
  output : String := ""
  warnings : String := ""
deriving Inhabited

/-- A step of a command. -/
abbrev Command := ExceptT CommandError (StateM Console)

namespace Command

def print (text : String) : Command Unit := fun c => (.ok (), { c with output := c.output ++ text })

def warn (text : String) : Command Unit := fun c => (.ok (), { c with warnings := c.warnings ++ text })

/-- Runs an operation on the files; its failure is the cause of an error with this message. -/
def perform {α : Type} (message : String) (f : FileSystem → Except Failure α × FileSystem) :
    Command α :=
  fun c =>
    let (result, files) := f c.files
    (result.mapError fun e => ⟨message, e.message :: e.cause?.toList⟩, { c with files := files })

/-- Where the variable that pins the time is set, and what the clock says. -/
structure Clock where
  epoch : Option String
  now : Timestamp

def Clock.pinned (clock : Clock) : Except CommandError (Option Timestamp) :=
  match clock.epoch with
  | none => .ok none
  | some raw =>
    match Timestamp.pin raw with
    | .ok t => .ok (some t)
    | .error e => .error ⟨e.message, e.cause?.toList⟩

/-- The text of the settings file. -/
def settingsText (fs : FileSystem) (file : Path) : Except IoFault String := do
  let bytes ← fs.read file
  match Bytes.text? bytes with
  | some text => return text
  | none => .error .notText

/-- The settings in a file, or why they cannot be used. -/
def readSettings (fs : FileSystem) (file : Path) : Except CommandError Settings :=
  match settingsText fs file with
  | .error e => .error ⟨"Failed to read manifest: " ++ file.text, [e.message]⟩
  | .ok text =>
    match Settings.parse text with
    | none => .error ⟨"Failed to parse " ++ Settings.fileName, []⟩
    | some s =>
      match s.problem? with
      | some problem => .error ⟨problem, []⟩
      | none => .ok s

/-- Loads the settings and prints what is odd about them. -/
def loadSettings (file : Path) : Command Settings := do
  let s ← (readSettings (← get).files file : Except CommandError Settings)
  match s.caution? with
  | some caution => warn (Report.line ("Warning: " ++ caution))
  | none => pure ()
  return s

/-- Exports as the settings and an invocation say. -/
def exportBundle (clock : Clock) (s : Settings) (i : ExportInvocation) (message : String) :
    Command ExportResult := do
  let pinned ← (clock.pinned : Except CommandError (Option Timestamp))
  let options := i.options s pinned
  let store := Store.directory (Settings.resolve i.manifest s.exporting.root)
  perform message fun fs => Export.run fs store options {} clock.now

def runExport (clock : Clock) (i : ExportInvocation) : Command Unit := do
  let s ← loadSettings i.manifest
  print (Report.line ("Exporting: " ++ s.title ++ " (" ++ s.project.id ++ ")"))
  let r ← exportBundle clock s i ("Failed to export project '" ++ s.project.id ++ "'")
  print (Report.lines (Report.summary r))
  if r.options.dryRun then print (Report.changes r.changes i.diff)

def runPublish (clock : Clock) (i : PublishInvocation) : Command Unit := do
  let s ← loadSettings i.manifest
  print (Report.line ("Publishing: " ++ s.title ++ " " ++ s.project.version ++ " (" ++ s.project.id ++ ")"))
  if i.exportFirst then
    let r ← exportBundle clock s (i.exportInvocation s)
      ("Failed to export project '" ++ s.project.id ++ "'")
    print (Report.lines (Report.summary r))
  match i.options s (i.exportRoot s) with
  | .error problem => throw ⟨problem, []⟩
  | .ok options =>
    let rs ← perform "Failed to package archives" fun fs => Package.run fs options
    print (Report.archives options.dryRun rs)

def runCheck (clock : Clock) (i : CheckInvocation) : Command Unit := do
  let s ← loadSettings i.manifest
  print (Report.line ("Checking: " ++ s.title ++ " (" ++ s.project.id ++ ")"))
  let r ← exportBundle clock s i.exportInvocation ("Check failed for project '" ++ s.project.id ++ "'")
  print (Report.lines (Report.summary r))
  print (Report.changes r.changes i.diff)
  let warnings := r.prepared.compiled.warnings.length
  let pending := r.pending.length
  if i.strict && (warnings != 0 || pending != 0) then
    throw ⟨"Check failed: " ++ toString warnings ++ " warning(s), " ++ toString pending ++
      " pending change(s)", []⟩
  print (Report.line "Check passed")

def runInvocation (clock : Clock) : Invocation → Command Unit
  | .export_ i => runExport clock i
  | .publish i => runPublish clock i
  | .check i => runCheck clock i

end Command

/-- What a command leaves. -/
structure Outcome where
  files : FileSystem
  output : String
  errors : String
  code : Nat
deriving Inhabited

namespace Outcome

def usage : String :=
  Report.lines ["Export and publish tool for Talewright projects", "", "Usage: talewright <COMMAND>", "",
    "Commands:", "  export   Compile scenes into a script bundle",
    "  publish  Package the export into per-target archives",
    "  check    Validate the settings and preview an export (dry run)"]

/-- What is said to arguments that cannot be used. -/
def ofStop (fs : FileSystem) : Stop → Outcome
  | .help => ⟨fs, usage, "", 0⟩
  | .version => ⟨fs, Report.line "talewright 0.1.0", "", 0⟩
  | .fault _ => ⟨fs, "", Report.line "error: invalid arguments" ++ usage, 2⟩

/-- Runs a command line. -/
def ofCommandLine (fs : FileSystem) (words : List String) (clock : Command.Clock) : Outcome :=
  match Invocation.parse words with
  | .error stop => ofStop fs stop
  | .ok i =>
    match (Command.runInvocation clock i).run.run { files := fs } with
    | (.ok (), c) => ⟨c.files, c.output, c.warnings, 0⟩
    | (.error e, c) => ⟨c.files, c.output, c.warnings ++ Report.error e.message e.causes, 1⟩

end Outcome

end StoryPress
