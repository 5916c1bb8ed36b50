import StoryPress.Bundle.Layout
import StoryPress.Failure
import StoryPress.Json.Reader

/-!
# Legal texts

The texts that go into an archive: an agreement and a licence, given as files or by default, and a list of
the licences of the pictures, taken from the manifest of the bundle.
-/

namespace StoryPress.Legal

/-- The agreement where none is given. -/
def defaultAgreement (title version author : String) : String :=
  "END USER LICENSE AGREEMENT\n\n" ++ title ++ " (version " ++ version ++ ")\nCopyright (c) " ++ author ++
    ". All rights reserved.\n\n" ++
    "You may install and play this game for personal, non-commercial use.\n" ++
    "You may not redistribute, resell or modify the game or its assets\n" ++
    "without written permission from the author.\n\n" ++
    "THE GAME IS PROVIDED \"AS IS\", WITHOUT WARRANTY OF ANY KIND.\n"

/-- The licence where none is given. -/
def defaultLicense (title author : String) : String :=
  title ++ "\nCopyright (c) " ++ author ++ ". All rights reserved.\n\n" ++
    "Third-party asset licenses are listed in license_manifest.json.\n"

/-- The text in a file that is given, or the default. -/
def textOr (fs : FileSystem) (file : Option Path) (default : String) : Except Failure String :=
  match file with
  | none => .ok default
  | some p => do
    let bytes ← fs.readWithin maxDocumentBytes p
    match String.fromUTF8? bytes with
    | some text => return text
    | none => .error (.packaging (p.text ++ " is not valid UTF-8"))

/-- The licence of a picture in the bundle. -/
structure Entry where
  name : String
  path : String
  sha256 : String
  license : Option String
  author : Option String
  source : Option String
deriving DecidableEq, Inhabited

namespace Entry

/-- Takes an entry from the record of a picture; what is missing is left empty. -/
def ofRecord (record : Json) : Entry :=
  let text (key : String) : Option String := (record.field? key).bind Json.asString?
  { name := (text "alias").getD "", path := (text "output_path").getD "", sha256 := (text "sha256").getD ""
    license := text "license", author := text "author", source := text "source" }

def toJson (e : Entry) : Json :=
  .object [("alias", .string e.name), ("path", .string e.path), ("sha256", .string e.sha256),
    ("license", Json.ofText? e.license), ("author", Json.ofText? e.author),
    ("source", Json.ofText? e.source)]

end Entry

/-- The records of the pictures in a manifest, backgrounds first. -/
def records (manifest : Json) : List Json :=
  ["backgrounds", "portraits"].flatMap fun kind =>
    (((manifest.field? "assets").bind (·.field? kind)).bind Json.asArray?).getD []

/-- Entries in byte order of their paths, the first of each path. -/
def sortEntries (entries : List Entry) : List Entry :=
  (OrderedMap.ofList (entries.reverse.map fun e => (e.path, e))).values

/-- The manifest in an export tree, as a value. -/
def manifestOf (fs : FileSystem) (root : Path) : Except Failure (Option Json) :=
  let p := root.join Layout.exportManifest
  if !fs.isFile p then .ok none
  else do
    let bytes ← fs.readWithin maxDocumentBytes p
    match Json.parseBytes Json.Tree.value bytes with
    | .ok v => return some v
    | .error c => .error (.packaging ("unreadable " ++ p.text ++ ": " ++ Failure.categoryText c))

/-- The licences of the pictures of an export tree; a tree without a manifest has none. -/
def entries (fs : FileSystem) (root : Path) : Except Failure (List Entry) := do
  let manifest ← manifestOf fs root
  return sortEntries ((manifest.toList.flatMap records).map Entry.ofRecord)

/-- The file with the licences. -/
def manifestJson (project version : String) (entries : List Entry) : Json :=
  .object [("project", .string project), ("version", .string version),
    ("assets", .array (entries.map Entry.toJson))]

end StoryPress.Legal
