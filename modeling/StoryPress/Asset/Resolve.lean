import StoryPress.Asset.Index
import StoryPress.Asset.Reference

/-!
# From references to files

A reference is looked for in steps, and the first that finds a file wins: the exact path in the index, a file
on disk, the path or the file name in another letter case, a file below the root with the same stem. A
portrait is then looked for by character and expression, and by character with the neutral expression. Among
several files the first in byte order wins.
-/

namespace StoryPress

/-- The step that found a file. -/
inductive ResolutionStep where
  | exactPath
  | onDisk
  | caseInsensitive
  | directoryScan
  | characterExpression
  | neutralFallback
deriving DecidableEq, Inhabited

def ResolutionStep.name : ResolutionStep → String
  | exactPath => "exact_path"
  | onDisk => "on_disk"
  | caseInsensitive => "case_insensitive"
  | directoryScan => "directory_scan"
  | characterExpression => "character_expression"
  | neutralFallback => "neutral_fallback"

/-- The expression asked for, and the one taken instead. -/
structure ExpressionFallback where
  requested : String
  substituted : String
deriving DecidableEq, Inhabited

structure ResolvedAsset where
  /-- The path below the asset root. -/
  relative : String
  path : Path
  step : ResolutionStep
  fallback : Option ExpressionFallback := none
deriving DecidableEq, Inhabited

inductive AssetKind where
  | background
  | portrait
deriving DecidableEq, Inhabited

def AssetKind.name : AssetKind → String
  | background => "background"
  | portrait => "portrait"

namespace AssetIndex

/-- The last segment of a reference. -/
def lastSegment (reference : String) : String := (Text.pieces '/' reference).getLast?.getD reference

/-- A picture of the index as the result of a step. -/
def found (a : IndexedAsset) (step : ResolutionStep) : ResolvedAsset := ⟨a.relative, a.path, step, none⟩

/-- The first picture whose path is `reference` in some letter case, or else whose file name is. -/
def matchCase (index : AssetIndex) (reference : String) : Option IndexedAsset :=
  let path := Text.lower reference
  let name := Text.lower (lastSegment reference)
  (index.list.find? fun a => Text.lower a.relative == path).orElse fun _ =>
    index.list.find? fun a => Text.lower a.fileName == name

/-- The first picture of a walk whose stem is the stem of `reference` in some letter case. -/
def scanForStem (fs : FileSystem) (index : AssetIndex) (reference : String) : Option ResolvedAsset :=
  let wanted := Text.lower (Path.splitName (lastSegment reference)).1
  if !fs.isDirectory index.root || wanted.isEmpty then none
  else
    match fs.walkFiles index.root with
    | .error _ => none
    | .ok files =>
      match files.find? fun (p, _) => p.isImage && p.stem?.map Text.lower == some wanted with
      | none => none
      | some (p, _) =>
        (Path.slashBelow? index.root p).map fun relative => ⟨relative, p, .directoryScan, none⟩

/-- The steps that do not look at characters. -/
def resolvePath (fs : FileSystem) (index : AssetIndex) (reference : String) : Option ResolvedAsset :=
  match index.get? reference with
  | some a => some (found a .exactPath)
  | none =>
    let onDisk := index.root.join reference
    if fs.isFile onDisk then some ⟨reference, onDisk, .onDisk, none⟩
    else
      match index.matchCase reference with
      | some a => some (found a .caseInsensitive)
      | none => scanForStem fs index reference

/-- The first picture with a portrait key. -/
def findPortrait (index : AssetIndex) (key : PortraitKey) : Option IndexedAsset :=
  index.list.find? fun a => a.portrait? == some key

/-- The picture of a character, if need be with the neutral expression. -/
def matchCharacter (index : AssetIndex) (reference : String) : Option ResolvedAsset :=
  match PortraitKey.ofReference reference with
  | none => none
  | some key =>
    match index.findPortrait key with
    | some a => some (found a .characterExpression)
    | none =>
      if key.expression = PortraitKey.neutral then none
      else
        (index.findPortrait ⟨key.character, PortraitKey.neutral⟩).map fun a =>
          ⟨a.relative, a.path, .neutralFallback, some ⟨key.expression, PortraitKey.neutral⟩⟩

/-- The file that an authored reference stands for. -/
def resolve (fs : FileSystem) (index : AssetIndex) (kind : AssetKind) (raw : String) :
    Option ResolvedAsset :=
  match Reference.normalize raw index.root with
  | none => none
  | some reference =>
    match kind with
    | .background => resolvePath fs index reference
    | .portrait => (resolvePath fs index reference).orElse fun _ => index.matchCharacter reference

end AssetIndex

end StoryPress
