import StoryPress.Asset.Portrait
import StoryPress.FileSystem.Walk
import StoryPress.Text.Case

/-!
# The index of pictures

The index holds every picture below the asset root by its path from there, in byte order. Pictures below a
directory of characters have a portrait key.
-/

namespace StoryPress

/-- The extensions of pictures. -/
def imageExtensions : List String := ["png", "jpg", "jpeg", "webp", "gif", "bmp"]

def isImageExtension (ext : String) : Bool := imageExtensions.contains (Text.lowerAscii ext)

def Path.isImage (p : Path) : Bool := p.extension?.any isImageExtension

inductive AssetCategory where
  | background
  | character
  | other
deriving DecidableEq, Inhabited

namespace AssetCategory

def name : AssetCategory → String
  | background => "background"
  | character => "character"
  | other => "other"

/-- The category of the pictures in a directory below the asset root. -/
def ofDirectory (dir : String) : AssetCategory :=
  let dir := Text.lowerAscii dir
  if ["backgrounds", "background", "bg", "bgs"].contains dir then background
  else if ["characters", "character", "portraits", "sprites"].contains dir then character
  else other

end AssetCategory

structure IndexedAsset where
  /-- The path below the asset root. -/
  relative : String
  path : Path
deriving DecidableEq, Inhabited

namespace IndexedAsset

def segments (a : IndexedAsset) : List String := Text.pieces '/' a.relative

def category (a : IndexedAsset) : AssetCategory :=
  match a.segments with
  | dir :: _ :: _ => AssetCategory.ofDirectory dir
  | _ => .other

def portrait? (a : IndexedAsset) : Option PortraitKey :=
  if a.category = .character then some (PortraitKey.ofSegments a.segments) else none

def fileName (a : IndexedAsset) : String := a.segments.getLast?.getD a.relative

def fileStem (a : IndexedAsset) : String :=
  ((Text.splitLast? '.' a.fileName).map (·.1)).getD a.fileName

end IndexedAsset

structure AssetIndex where
  root : Path := ⟨""⟩
  assets : OrderedMap String IndexedAsset := ∅

namespace AssetIndex

def insert (index : AssetIndex) (relative : String) (path : Path) : AssetIndex :=
  { index with assets := index.assets.insert relative ⟨relative, path⟩ }

def ofEntries (root : Path) (entries : List (String × Path)) : AssetIndex :=
  entries.foldl (fun index (relative, path) => index.insert relative path) { root := root }

def get? (index : AssetIndex) (relative : String) : Option IndexedAsset := index.assets.get? relative

/-- The pictures in byte order of their paths. -/
def list (index : AssetIndex) : List IndexedAsset := index.assets.values

/-- The pictures of a walk from `root`. -/
def picturesBelow (fs : FileSystem) (root : Path) : Except IoFault (List (String × Path)) := do
  let files ← fs.walkFiles root
  return files.filterMap fun (p, _) =>
    if p.isImage then (Path.slashBelow? root p).map fun relative => (relative, p) else none

/-- The index of the pictures below a directory; a root that is no directory has none. -/
def build (fs : FileSystem) (root : Path) : AssetIndex :=
  match if fs.isDirectory root then picturesBelow fs root else .ok [] with
  | .ok entries => ofEntries root entries
  | .error _ => { root := root }

end AssetIndex

end StoryPress
