import StoryPress.Document.Basic
import StoryPress.FileSystem.Basic
import StoryPress.Json.Printer

/-!
# Failures

What can stop an export or a packaging run, by cause; `Failure.message` words it.
-/

namespace StoryPress

inductive Failure where
  /-- There is no document of this kind with this id. -/
  | missingDocument (kind : DocumentKind) (id : String)
  /-- The document is there and cannot be read. -/
  | unreadableDocument (kind : DocumentKind) (id : String) (category : Json.Category)
  /-- A gate or a rating refused. -/
  | blocked (judge : String) (payload : Json)
  /-- The output directory cannot be used. -/
  | unusableOutput (dir : Path) (reason : String)
  | packaging (reason : String)
  /-- The file system refused an operation. -/
  | io (path : Path) (fault : IoFault)
  /-- A file could not be taken in; the file system's cause, if it is one. -/
  | unreadableFile (context : String) (cause : Option IoFault)
deriving Inhabited

namespace Failure

def categoryText : Json.Category → String
  | .malformed => "not a JSON document"
  | .truncated => "the document ends too early"
  | .shape => "the document has the wrong shape"

def message : Failure → String
  | missingDocument kind id => kind.name ++ " not found: " ++ id
  | unreadableDocument kind id category =>
    "malformed " ++ kind.name ++ " document '" ++ id ++ "': " ++ categoryText category
  | blocked judge payload => "export blocked by " ++ judge ++ ": " ++ payload.compact
  | unusableOutput dir reason => "invalid output directory " ++ dir.text ++ ": " ++ reason
  | packaging reason => "packaging failed: " ++ reason
  | io path fault => "I/O error at " ++ path.text ++ ": " ++ fault.message
  | unreadableFile context _ => context

/-- The message of the failure behind a failure, if there is one. -/
def cause? : Failure → Option String
  | unreadableDocument _ _ category => some (categoryText category)
  | io _ fault => some fault.message
  | unreadableFile _ (some fault) => some fault.message
  | _ => none

end Failure

/-- The largest document that is read, in bytes. -/
def maxDocumentBytes : Nat := 16 * 1024 * 1024

/-- The largest asset that is read, in bytes. -/
def maxAssetBytes : Nat := 256 * 1024 * 1024

/-- The content of a file of at most `limit` bytes. -/
def FileSystem.readWithin (fs : FileSystem) (limit : Nat) (p : Path) : Except Failure ByteArray :=
  match fs.stat p with
  | .error e => .error (.unreadableFile ("Failed to read file metadata: " ++ p.text) (some e))
  | .ok .directory => .error (.unreadableFile ("Failed to read file: " ++ p.text) (some .isADirectory))
  | .ok (.file content) =>
    if limit < content.size then
      .error (.unreadableFile
        ("File too large: " ++ p.text ++ " (" ++ toString content.size ++ " bytes, max " ++
          toString limit ++ " bytes)") none)
    else .ok content

end StoryPress
