import StoryPress.Bundle.Layout
import StoryPress.Failure
import StoryPress.Hash.Sha256
import StoryPress.Image.Dimensions
import StoryPress.Json.Reader
import StoryPress.Naming.Fresh
import StoryPress.Warning

/-!
# The catalog of pictures in use

Each reference that an export meets is registered once, in order: as a file in use, or as missing. Files of
one kind have one alias each, and no two files share one.
-/

namespace StoryPress

/-- What is known of the origin of a picture. -/
structure AssetOrigin where
  license : Option String := none
  author : Option String := none
  source : Option String := none
deriving DecidableEq, Inhabited

namespace AssetOrigin

def record : Json.Record AssetOrigin where
  start := {}
  fields := [
    Json.Field.of "license" (Json.Tree.optional Json.Tree.text) fun v o => { o with license := v },
    Json.Field.of "author" (Json.Tree.optional Json.Tree.text) fun v o => { o with author := v },
    Json.Field.of "source" (Json.Tree.optional Json.Tree.text) fun v o => { o with source := v }]

/-- The file beside a picture that tells its origin. -/
def pathFor (picture : Path) : Path := picture.append Layout.originSuffix

/-- The origin of a picture; nothing is known of one whose file is missing or cannot be read. -/
def load (fs : FileSystem) (picture : Path) : AssetOrigin :=
  let p := pathFor picture
  if !fs.isFile p then {}
  else
    match fs.readWithin maxDocumentBytes p with
    | .error _ => {}
    | .ok bytes =>
      match Json.parseBytes record.read bytes with
      | .ok o => o
      | .error _ => {}

end AssetOrigin

/-- A picture in use. -/
structure AssetUsage where
  kind : AssetKind
  /-- The reference, trimmed. -/
  logical : String
  /-- The path below the asset root. -/
  relative : String
  source : Path
  /-- The name of the picture in the script. -/
  alias_ : String
  sha256 : String
  size : Nat
  /-- Width and height, where they can be read. -/
  dimensions : Option (Nat × Nat)
  origin : AssetOrigin
  step : ResolutionStep
  fallback : Option ExpressionFallback
deriving DecidableEq, Inhabited

/-- The path of the copy, relative to the bundle. -/
def AssetUsage.output (u : AssetUsage) : String := Layout.image u.relative

/-- What stands for a reference in a script. -/
inductive AssetToken where
  | alias_ (name : String)
  /-- A reference without a file. -/
  | raw (reference : String)
deriving DecidableEq, Inhabited

/-- A registered reference, with the file it stands for. -/
structure Registration where
  kind : AssetKind
  logical : String
  usage : Option AssetUsage
deriving DecidableEq, Inhabited

/-- The alias of the file at a path, for one kind. -/
structure AliasEntry where
  kind : AssetKind
  relative : String
  alias_ : String
deriving DecidableEq, Inhabited

structure AssetCatalog where
  /-- In the order of registration. -/
  registrations : List Registration := []
  aliases : List AliasEntry := []
deriving DecidableEq, Inhabited

namespace AssetCatalog

/-- What the aliases of a kind begin with. -/
def aliasLead : AssetKind → String
  | .background => "bg"
  | .portrait => "ch"

/-- The words of an alias: the path without its extension and without a directory that names a category. -/
def aliasStem (relative : String) : String :=
  let stem :=
    match Text.splitLast? '.' relative with
    | some (stem, ext) => if ext.toList.contains '/' then relative else stem
    | none => relative
  let segments :=
    match Text.pieces '/' stem with
    | dir :: s :: rest => if AssetCategory.ofDirectory dir = .other then dir :: s :: rest else s :: rest
    | segments => segments
  Naming.slug (Text.joinWith "_" segments)

/-- The alias asked for by a file. -/
def wantedAlias (kind : AssetKind) (relative : String) : String :=
  let stem := aliasStem relative
  aliasLead kind ++ "_" ++ if stem.isEmpty then "asset" else stem

/-- The alias of a file, given out at its first use. -/
def aliasFor (c : AssetCatalog) (kind : AssetKind) (relative : String) : String × AssetCatalog :=
  match c.aliases.find? fun e => e.kind = kind && e.relative = relative with
  | some e => (e.alias_, c)
  | none =>
    let name := Naming.fresh (c.aliases.map (·.alias_)) (wantedAlias kind relative)
    (name, { c with aliases := c.aliases ++ [⟨kind, relative, name⟩] })

/-- The registration of a trimmed reference. -/
def find? (c : AssetCatalog) (kind : AssetKind) (logical : String) : Option Registration :=
  c.registrations.find? fun r => r.kind = kind && r.logical = logical

def Registration.token (r : Registration) : AssetToken :=
  match r.usage with
  | some u => .alias_ u.alias_
  | none => .raw r.logical

/-- What stands for a reference; one that was not registered stands for itself. -/
def lookup (c : AssetCatalog) (kind : AssetKind) (reference : String) : AssetToken :=
  let logical := Text.trim reference
  match c.find? kind logical with
  | some r => Registration.token r
  | none => .raw logical

def add (c : AssetCatalog) (r : Registration) : AssetCatalog :=
  { c with registrations := c.registrations ++ [r] }

/-- The file that a reference stands for, as it is used under an alias. -/
def usageOf (fs : FileSystem) (kind : AssetKind) (logical name : String) (found : ResolvedAsset) :
    Except Failure AssetUsage := do
  let bytes ← fs.readWithin maxAssetBytes found.path
  return {
    kind := kind
    logical := logical
    relative := found.relative
    source := found.path
    alias_ := name
    sha256 := Hash.sha256Hex bytes
    size := bytes.size
    dimensions := ImageFormat.dimensions? found.path bytes
    origin := AssetOrigin.load fs found.path
    step := found.step
    fallback := found.fallback }

/-- Registers a reference at its first use. The catalog that is given back keeps the alias of a file that
could not be read. -/
def register (fs : FileSystem) (index : AssetIndex) (c : AssetCatalog) (kind : AssetKind)
    (reference scene : String) : AssetCatalog × Except Failure (AssetToken × List ExportWarning) :=
  let logical := Text.trim reference
  match c.find? kind logical with
  | some r => (c, .ok (Registration.token r, []))
  | none =>
    match index.resolve fs kind logical with
    | none =>
      (c.add ⟨kind, logical, none⟩, .ok (.raw logical, [.unresolvedAsset kind scene logical]))
    | some found =>
      let (name, c) := c.aliasFor kind found.relative
      match usageOf fs kind logical name found with
      | .error e => (c, .error e)
      | .ok usage =>
        let warnings := found.fallback.toList.map fun f =>
          ExportWarning.portraitFallback logical f.requested f.substituted
        (c.add ⟨kind, logical, some usage⟩, .ok (.alias_ name, warnings))

/-- The files of a kind that are in use, by reference. -/
def used (c : AssetCatalog) (kind : AssetKind) : List AssetUsage :=
  (OrderedMap.ofList (c.registrations.filterMap fun r =>
    if r.kind = kind then r.usage.map fun u => (r.logical, u) else none)).values

/-- The references of a kind without a file, in byte order. -/
def missing (c : AssetCatalog) (kind : AssetKind) : List String :=
  (OrderedMap.ofList (c.registrations.filterMap fun r =>
    if r.kind = kind && r.usage.isNone then some (r.logical, ()) else none)).keys

/-- All files in use, backgrounds first. -/
def usages (c : AssetCatalog) : List AssetUsage := c.used .background ++ c.used .portrait

/-- The first use of the file with an alias. -/
def byAlias? (c : AssetCatalog) (name : String) : Option AssetUsage := c.usages.find? (·.alias_ == name)

/-- References and the paths of their files, in the order of registration. -/
def pairs (c : AssetCatalog) : List (String × String) :=
  c.registrations.filterMap fun r => r.usage.map fun u => (r.logical, u.relative)

end AssetCatalog

end StoryPress
