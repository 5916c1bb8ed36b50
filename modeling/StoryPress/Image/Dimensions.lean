import StoryPress.FileSystem.Path
import StoryPress.Image.Jpeg
import StoryPress.Image.Png
import StoryPress.Text.Case

/-!
# Picture files

The name of a file says in which format it is read; formats other than PNG and JPEG are not read.
-/

namespace StoryPress

inductive ImageFormat where
  | png
  | jpeg
deriving DecidableEq, Inhabited

namespace ImageFormat

/-- The format of the files with an extension. -/
def ofExtension? (ext : String) : Option ImageFormat :=
  let ext := Text.lowerAscii ext
  if ["png", "apng"].contains ext then some png
  else if ["jpg", "jpeg", "jfif"].contains ext then some jpeg
  else none

def ofPath? (p : Path) : Option ImageFormat := p.extension?.bind ofExtension?

/-- The width and height of a picture whose headers can be read. -/
def dimensions? (p : Path) (bytes : ByteArray) : Option (Nat × Nat) :=
  match ofPath? p with
  | some png => Png.dimensions? bytes
  | some jpeg => Jpeg.dimensions? bytes
  | none => none

/-- Whether a picture can be read as a whole. -/
def isReadable (p : Path) (bytes : ByteArray) : Bool :=
  match ofPath? p with
  | some png => Png.isComplete bytes
  | some jpeg => (Jpeg.dimensions? bytes).isSome
  | none => false

end ImageFormat

end StoryPress
