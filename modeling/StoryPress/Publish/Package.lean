import StoryPress.Bundle.Manifest
import StoryPress.Bundle.Sink
import StoryPress.Bundle.Stamp
import StoryPress.Naming.Component
import StoryPress.Publish.Archive
import StoryPress.Publish.Icon
import StoryPress.Publish.Legal
import StoryPress.Publish.Platform

/-!
# Packages

A bundle is packaged as one archive for each target, and so is each of its forks. Beside each archive stand
its manifest, the licences of its pictures, and stamps. All checks come before the first write.
-/

namespace StoryPress

structure PublishTarget where
  name : String := ""
  platforms : List String := []
deriving DecidableEq, Inhabited

structure PackageOptions where
  slug : String
  title : String
  version : String := "0.1.0"
  author : String := ""
  /-- The bundle, or the directory in which it is. -/
  exportRoot : Path
  dist : Path
  targets : List PublishTarget := []
  icon : Option Path := none
  agreement : Option Path := none
  license : Option Path := none
  /-- Whether the list of hooks goes into the archives. -/
  debug : Bool := false
  forks : Bool := true
  dryRun : Bool := false

structure PackageResult where
  target : String
  /-- The slug of the fork that is in the archive. -/
  fork : Option String
  archive : Path
  manifest : Path
  licenses : Path
  checksum : String
  size : Nat
  changes : List Change
  stamps : List Path

namespace Package

/-- A tree to be packaged. -/
structure Source where
  fork : Option String
  slug : String
  root : Path
deriving DecidableEq, Inhabited

/-- A target whose name and platforms have been checked. -/
structure CheckedTarget where
  name : String
  platforms : List Platform
deriving DecidableEq, Inhabited

/-- A target is named by a safe component without spaces. -/
def isTargetName (name : String) : Bool := Naming.isSafeComponent name && !name.toList.contains ' '

def checkTarget (t : PublishTarget) : Except Failure CheckedTarget :=
  if isTargetName t.name then do return ⟨t.name, ← Platform.parseAll t.name t.platforms⟩
  else .error (.packaging ("invalid target name '" ++ t.name ++ "'"))

/-- Checks targets in order; there must be one. -/
def checkTargets (targets : List PublishTarget) : Except Failure (List CheckedTarget) :=
  if targets.isEmpty then .error (.packaging "no publish targets configured") else targets.mapM checkTarget

/-- The part of an export manifest that tells the forks. -/
def forksRecord : Json.Record (List ForkDescriptor) where
  start := []
  fields := [
    (Json.Field.of "pov" (Json.Record.read
      { start := ([] : List ForkDescriptor)
        fields := [Json.Field.of "forks" (Json.Tree.list ForkDescriptor.record.read) fun v _ => v] })
      fun v _ => v).needed]

/-- The forks that the manifest of a bundle tells; a tree without a manifest has none. -/
def recordedForks (fs : FileSystem) (root : Path) : Except Failure (List ForkDescriptor) :=
  let p := root.join Layout.exportManifest
  if !fs.isFile p then .ok []
  else do
    let bytes ← fs.readWithin maxDocumentBytes p
    match Json.parseBytes forksRecord.read bytes with
    | .ok forks => return forks
    | .error c => .error (.packaging ("unreadable " ++ p.text ++ ": " ++ Failure.categoryText c))

/-- The tree of a fork, which must be where forks are. -/
def forkSource (fs : FileSystem) (options : PackageOptions) (d : ForkDescriptor) : Except Failure Source :=
  if !Naming.isSafeComponent d.slug || d.path ≠ Layout.fork d.slug then
    .error (.packaging ("fork '" ++ d.slug ++ "' has an unexpected path '" ++ d.path ++ "'"))
  else
    let root := options.exportRoot.join d.path
    if fs.isDirectory (root.join Layout.gameDir) then
      .ok ⟨some d.slug, options.slug ++ "-" ++ d.slug, root⟩
    else .error (.packaging ("fork '" ++ d.slug ++ "' has no game tree"))

/-- The trees to be packaged: the bundle, then its forks. -/
def sources (fs : FileSystem) (options : PackageOptions) : Except Failure (List Source) :=
  let game := options.exportRoot.join Layout.gameDir
  if !fs.isDirectory game then .error (.packaging ("missing game tree at " ++ game.text))
  else
    let main : Source := ⟨none, options.slug, options.exportRoot⟩
    if options.forks then do
      let forks ← (← recordedForks fs options.exportRoot).mapM (forkSource fs options)
      return main :: forks
    else .ok [main]

/-- What all archives of a run share. -/
structure Shared where
  icon : ByteArray
  agreement : String
  license : String

/-- The files of one archive. -/
structure Parts where
  /-- The name of the archive without its extension. -/
  stem : String
  archive : ByteArray
  manifest : String
  licenses : String
  inputs : List StampInput

def Parts.archiveName (p : Parts) : String := p.stem ++ "." ++ Layout.archiveExtension

def Parts.manifestName (p : Parts) : String := p.stem ++ "." ++ Layout.publishManifest

def Parts.licensesName (p : Parts) : String := p.stem ++ ".license_manifest.json"

/-- The manifest of an archive. -/
def manifestJson (options : PackageOptions) (s : Source) (t : CheckedTarget) (archive : String)
    (files : List TreeFile) : Json :=
  .object [("schema", .string "talewright.publish/1"), ("slug", .string s.slug),
    ("title", .string options.title), ("version", .string options.version), ("author", .string options.author),
    ("target", .string t.name), ("storefront", .string (Storefront.ofTarget t.name).name),
    ("platforms", Json.ofStrings (t.platforms.map Platform.name)), ("fork", Json.ofText? s.fork),
    ("archive", .string archive), ("files", .array (files.map TreeFile.toJson))]

/-- The manifest of a bundle as an input of stamps. -/
def inputsOf (fs : FileSystem) (s : Source) : Except Failure (List StampInput) :=
  let p := s.root.join Layout.exportManifest
  if fs.isFile p then do
    let bytes ← fs.readWithin maxDocumentBytes p
    return [StampInput.ofBytes "export_manifest" Layout.exportManifest bytes]
  else .ok []

/-- Builds the archive of a tree for a target. -/
def build (fs : FileSystem) (options : PackageOptions) (shared : Shared) (s : Source) (t : CheckedTarget) :
    Except Failure Parts := do
  let stem := s.slug ++ "-" ++ t.name
  let archiveName := stem ++ "." ++ Layout.archiveExtension
  let top := s.slug ++ "/" ++ t.name
  let name (rel : String) : String := top ++ "/" ++ rel
  let (archive, files) ← Archive.addTree fs {} (name Layout.gameDir) (s.root.join Layout.gameDir)
  let manifest := (manifestJson options s t archiveName files).pretty
  let licenses := (Legal.manifestJson s.slug options.version (← Legal.entries fs s.root)).pretty
  let inputs ← inputsOf fs s
  let stamp := Stamp.ofBytes Layout.publishManifest manifest.toUTF8 inputs
  let archive := archive.addText (name Layout.publishManifest) manifest
    |>.addText (name Layout.channels) (Storefront.channelsJson t.name s.slug archiveName t.platforms).pretty
    |>.addText (name "legal/EULA.txt") shared.agreement
    |>.addText (name "legal/LICENSE.txt") shared.license
    |>.addText (name "legal/license_manifest.json") licenses
    |>.addText (name Layout.provenance) stamp.text
    |>.add (name "icon.png") shared.icon
  let archive :=
    if options.debug then archive.addText (name "debug/hook_catalog.json") Hook.catalog.pretty else archive
  return { stem, archive := archive.bytes, manifest, licenses, inputs }

/-- Puts the stamps of the manifest and of the archive beside them. -/
def putStamps (p : Parts) : Work (List Path) := do
  let manifest := p.manifest.toUTF8
  let first := Stamp.ofBytes p.manifestName manifest p.inputs
  let second := Stamp.ofBytes p.archiveName p.archive
    [StampInput.ofBytes "publish_manifest" p.manifestName manifest]
  let a ← Sink.put (Layout.stamp p.manifestName) (.text first.text)
  let b ← Sink.put (Layout.stamp p.archiveName) (.text second.text)
  return [a, b]

/-- Builds the archive of a tree for a target and puts it into the dist directory. -/
def packageOne (options : PackageOptions) (shared : Shared) (s : Source) (t : CheckedTarget) :
    Work PackageResult := do
  Sink.updating fun _ => { root := options.dist, dryRun := options.dryRun }
  let p ← Sink.reading fun fs => build fs options shared s t
  let archive ← Sink.put p.archiveName (.bytes p.archive)
  let manifest ← Sink.put p.manifestName (.text p.manifest)
  let licenses ← Sink.put p.licensesName (.text p.licenses)
  let stamps ← if options.dryRun then pure [] else putStamps p
  let changes := (← get).sink.changes
  return { target := t.name, fork := s.fork, archive, manifest, licenses
           checksum := Hash.sha256Hex p.archive, size := p.archive.size, changes, stamps }

/-- What is settled before the first write. -/
structure Plan where
  targets : List CheckedTarget
  sources : List Source
  shared : Shared

/-- Checks all that is given, and reads what the archives share. -/
def plan (fs : FileSystem) (options : PackageOptions) : Except Failure Plan := do
  let targets ← checkTargets options.targets
  let sources ← sources fs options
  if fs.contains options.dist && !fs.isDirectory options.dist then
    .error (.unusableOutput options.dist "dist path exists and is not a directory")
  let icon ← Icon.make fs options.icon options.slug
  let agreement ← Legal.textOr fs options.agreement
    (Legal.defaultAgreement options.title options.version options.author)
  let license ← Legal.textOr fs options.license (Legal.defaultLicense options.title options.author)
  return { targets, sources, shared := { icon, agreement, license } }

/-- Packages every tree for every target. The files come back as they are left, also by a failure. -/
def run (fs : FileSystem) (options : PackageOptions) : Except Failure (List PackageResult) × FileSystem :=
  match plan fs options with
  | .error e => (.error e, fs)
  | .ok p =>
    let jobs := p.sources.flatMap fun s => p.targets.map fun t => (s, t)
    let work : Work (List PackageResult) := jobs.mapM fun (s, t) => packageOne options p.shared s t
    let (result, w) := work.run.run ⟨fs, { root := options.dist, dryRun := options.dryRun }⟩
    (result, w.files)

end Package

end StoryPress
