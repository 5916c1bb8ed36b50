import StoryPress.FileSystem.Path
import StoryPress.Text.Blank
import StoryPress.Text.Case

/-!
# Authored references

An author names a picture in many ways: with a scheme, with backslashes, from the asset root or below it.
`Reference.normalize` brings these to one relative path; addresses on the network and paths that climb name
no asset.
-/

namespace StoryPress.Reference

/-- Schemes that are dropped. -/
def schemes : List String := ["asset://", "assets://", "file://", "res://"]

/-- Beginnings of addresses on the network. -/
def networkStarts : List String := ["http://", "https://", "ftp://", "//"]

/-- Drops slashes and `./` from the front. -/
def dropLeading : List Char → List Char
  | '.' :: '/' :: rest => dropLeading rest
  | '/' :: rest => dropLeading rest
  | cs => cs

/-- What an authored text says without its scheme and the fillers in front; nothing for an address on the
network. -/
def bare? (raw : String) : Option String :=
  let reference := Text.mapChars (fun c => if c = '\\' then '/' else c) (Text.trim raw)
  let lower := Text.lowerAscii reference
  if networkStarts.any fun s => Text.startsWith s lower then none
  else
    match schemes.find? fun s => Text.startsWith s lower with
    | some s => some (String.ofList (dropLeading (reference.toList.drop s.length)))
    | none => some (String.ofList (dropLeading reference.toList))

/-- Whether a segment names the asset root, by its own name or as `assets`. -/
def namesRoot (root : Path) (segment : String) : Bool :=
  let segment := Text.lowerAscii segment
  segment == "assets" || root.name?.map Text.lowerAscii == some segment

/-- Drops the first segment if it names the asset root. -/
def dropRoot (root : Path) (reference : String) : String :=
  match Text.splitFirst? '/' reference with
  | some (first, rest) => if namesRoot root first then rest else reference
  | none => reference

/-- The path below the asset root that an authored text stands for. -/
def normalize (raw : String) (root : Path) : Option String :=
  ((bare? raw).map (dropRoot root)).filter fun rest =>
    !rest.isEmpty && !(Text.pieces '/' rest).contains ".."

end StoryPress.Reference
