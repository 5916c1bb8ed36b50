import StoryPress.Failure
import StoryPress.Hash.Sha256

/-!
# Provenance stamps

A stamp tells the digest of an artifact and the digests of the inputs it was made from. It holds no time, so
equal inputs give equal stamps.
-/

namespace StoryPress

structure StampInput where
  kind : String
  id : String
  sha256 : String
deriving DecidableEq, Inhabited

namespace StampInput

def ofBytes (kind id : String) (bytes : ByteArray) : StampInput := ⟨kind, id, Hash.sha256Hex bytes⟩

/-- A document, by its file where there is one, and else by its written form. -/
def ofDocument (fs : FileSystem) (kind : DocumentKind) (id : String) (source : Option Path) (form : Json) :
    Except Failure StampInput :=
  match source.filter fs.isFile with
  | some p => do
    let bytes ← fs.readWithin maxAssetBytes p
    return ofBytes kind.name id bytes
  | none => .ok (ofBytes kind.name id form.compact.toUTF8)

def toJson (i : StampInput) : Json :=
  .object [("kind", .string i.kind), ("id", .string i.id), ("sha256", .string i.sha256)]

end StampInput

structure Stamp where
  artifact : String
  sha256 : String
  size : Nat
  inputs : List StampInput
deriving DecidableEq, Inhabited

namespace Stamp

def ofBytes (artifact : String) (bytes : ByteArray) (inputs : List StampInput) : Stamp :=
  ⟨artifact, Hash.sha256Hex bytes, bytes.size, inputs⟩

def toJson (s : Stamp) : Json :=
  .object [("schema", .string "talewright.provenance/1"), ("artifact", .string s.artifact),
    ("sha256", .string s.sha256), ("size", Json.ofNat s.size),
    ("generator", .object [("name", .string "talewright-export"), ("version", .string "0.1.0")]),
    ("inputs", .array (s.inputs.map StampInput.toJson))]

/-- The file of a stamp. -/
def text (s : Stamp) : String := s.toJson.pretty

end Stamp

end StoryPress
