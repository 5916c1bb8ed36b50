import StoryPress.Bundle.Export
import StoryPress.Publish.Package
import StoryPress.Text.Pieces

/-!
# Reports

What the commands print: the summary of an export, the changes of a dry run, the archives of a packaging run,
and an error with its causes.
-/

namespace StoryPress.Report

/-- A text with a line end. -/
def line (s : String) : String := s ++ "\n"

def lines (ss : List String) : String := String.join (ss.map line)

/-- A line with a list, if there is anything in it. -/
def listLine (label : String) (items : List String) : List String :=
  if items.isEmpty then [] else ["  " ++ label ++ ": " ++ Text.joinWith ", " items]

/-- The summary of an export. -/
def summary (r : ExportResult) : List String :=
  let count (n : Nat) (what : String) : String := toString n ++ " " ++ what
  let plan := r.prepared.plan
  ["  Scenes: " ++ toString r.prepared.compiled.labels.size,
    "  Assets: " ++ count (r.catalog.used .background).length "background(s), " ++
      count (r.catalog.used .portrait).length "portrait(s)"] ++
    listLine "Missing backgrounds" (r.catalog.missing .background) ++
    listLine "Missing portraits" (r.catalog.missing .portrait) ++
    listLine "Routes" (plan.routes.map fun x => x.display ++ " (" ++ count x.labels.length "scenes)") ++
    (if plan.menu then ["  Viewpoint menu: enabled"] else []) ++
    (r.forks.map fun f => "  Fork: " ++ f.route.viewpoint ++ " -> " ++ f.dir.text) ++
    (r.prepared.compiled.warnings.map fun w => "  Warning: " ++ w.message) ++
    (r.findings.map fun f => "  Advisory [" ++ f.code ++ "]: " ++ f.message) ++
    if r.options.dryRun then []
    else ["  Script: " ++ r.script.text, "  Manifest: " ++ r.manifestPath.text]

/-- A word with blanks after it, up to a width. -/
def padded (width : Nat) (word : String) : String :=
  word ++ String.ofList (List.replicate (width - word.length) ' ')

/-- What is said of a change besides its path. -/
def detail : Option ChangeDetail → String
  | some (.unified text _) => text
  | some (.hashes before after) => line ("    sha256 " ++ before.getD "-" ++ " -> " ++ after)
  | none => ""

/-- The changes of a dry run, with their details or without. -/
def changes (all : List Change) (details : Bool) : String :=
  let pending := all.filter fun c => c.status != .unchanged
  line ("Dry run: " ++ toString all.length ++ " file(s), " ++ toString pending.length ++ " would change") ++
    String.join (pending.map fun c =>
      line ("  " ++ padded 9 c.status.name ++ " " ++ c.path) ++ if details then detail c.detail else "")

/-- An archive, with what a dry run would change or the path of its manifest. -/
def archive (dryRun : Bool) (r : PackageResult) : String :=
  let label :=
    match r.fork with
    | some fork => r.target ++ " [" ++ fork ++ "]"
    | none => r.target
  line ("  " ++ label ++ ": " ++ r.archive.text ++ " (" ++ toString r.size ++ " bytes)") ++
    line ("    sha256: " ++ r.checksum) ++
    if dryRun then changes r.changes false else line ("    manifest: " ++ r.manifest.text)

def archives (dryRun : Bool) (rs : List PackageResult) : String :=
  String.join (rs.map (archive dryRun)) ++ line ("Packaged " ++ toString rs.length ++ " archive(s)")

/-- A text whose lines after the first are indented. -/
def indented (first rest text : String) : String :=
  first ++ Text.joinWith ("\n" ++ rest) (Text.pieces '\n' text)

/-- An error with its causes, from the outermost to the innermost; several causes are numbered. -/
def error (message : String) (causes : List String) : String :=
  let told :=
    match causes with
    | [] => ""
    | [cause] => "\n\nCaused by:\n" ++ indented "    " "    " cause
    | causes =>
      "\n\nCaused by:\n" ++ Text.joinWith "\n" (causes.zipIdx.map fun (cause, i) =>
        let number := toString i
        indented (String.ofList (List.replicate (5 - number.length) ' ') ++ number ++ ": ") "       " cause)
  line ("Error: " ++ message ++ told)

end StoryPress.Report
