/-!
# The layout of a bundle

Where the files of an exported bundle and of its archives are, relative to their roots.
-/

namespace StoryPress.Layout

/-- The directory of the playable game. -/
def gameDir : String := "game"

def scenesDir : String := "scenes"

def imagesDir : String := "images"

/-- The directory of the forks, one below it for each route. -/
def forksDir : String := "forks"

def scriptExtension : String := "rpy"

def archiveExtension : String := "zip"

/-- The main script. -/
def script : String := gameDir ++ "/script.rpy"

/-- The script module of the scene with a label. -/
def sceneModule (label : String) : String :=
  gameDir ++ "/" ++ scenesDir ++ "/" ++ label ++ "." ++ scriptExtension

/-- The copy of a picture. -/
def image (relative : String) : String := gameDir ++ "/" ++ imagesDir ++ "/" ++ relative

def exportManifest : String := "export_manifest.json"

def labelManifest : String := "label_manifest.json"

def publishManifest : String := "publish_manifest.json"

def channels : String := "channels.json"

def provenance : String := "provenance.json"

/-- The stamp beside an artifact. -/
def stamp (artifact : String) : String := artifact ++ ".provenance.json"

/-- What the name of the file with the origin of a picture adds to that of the picture. -/
def originSuffix : String := ".meta.json"

/-- The tree of the fork with a slug. -/
def fork (slug : String) : String := forksDir ++ "/" ++ slug

/-- A path below `dir`; the empty directory is the root. -/
def under (dir rel : String) : String := if dir.isEmpty then rel else dir ++ "/" ++ rel

/-- The directories in which only what the last export produced is kept. -/
def generated : List String := [under gameDir scenesDir, under gameDir imagesDir, forksDir]

end StoryPress.Layout
