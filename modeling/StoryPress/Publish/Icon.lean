import StoryPress.Failure
import StoryPress.Hash.Sha256
import StoryPress.Image.Dimensions

/-!
# Icons

Every archive has a square icon: the given picture brought to size, or a coloured square with a darker
border, whose colour comes from the digest of the slug.
-/

namespace StoryPress.Icon

/-- The width and height of an icon. -/
def size : Nat := 256

def border : Nat := 16

/-- Red, green, blue and alpha. -/
structure Pixel where
  red : UInt8
  green : UInt8
  blue : UInt8
  alpha : UInt8 := 255
deriving DecidableEq, Inhabited

def Pixel.bytes (p : Pixel) : List UInt8 := [p.red, p.green, p.blue, p.alpha]

/-- The colour of the square; no channel is darker than a quarter. -/
def fill (slug : String) : Pixel :=
  match Hash.sha256 slug.toUTF8 with
  | r :: g :: b :: _ => ⟨r ||| 0x40, g ||| 0x40, b ||| 0x40, 255⟩
  | _ => ⟨0x40, 0x40, 0x40, 255⟩

/-- The colour of the border. -/
def edge (slug : String) : Pixel :=
  let p := fill slug
  ⟨p.red / 2, p.green / 2, p.blue / 2, 255⟩

def isInside (x y : Nat) : Bool :=
  border ≤ x && border ≤ y && x < size - border && y < size - border

/-- A pixel of the square. -/
def pixel (slug : String) (x y : Nat) : Pixel := if isInside x y then fill slug else edge slug

/-- Appends pixels of one colour. -/
def run (p : Pixel) : Nat → ByteArray → ByteArray
  | 0, out => out
  | n + 1, out => run p n ((((out.push p.red).push p.green).push p.blue).push p.alpha)

/-- Appends a row of the square. -/
def row (fill edge : Pixel) (y : Nat) (out : ByteArray) : ByteArray :=
  if border ≤ y && y < size - border then
    run edge border (run fill (size - 2 * border) (run edge border out))
  else run edge size out

/-- The rows of the square; `lead` stands in front of each. -/
def rows (slug : String) (lead : List UInt8) : ByteArray :=
  let f := fill slug
  let e := edge slug
  (List.range size).foldl (fun out y => row f e y (lead.foldl ByteArray.push out)) ByteArray.empty

/-- The file of the square. -/
def placeholder (slug : String) : ByteArray := Png.encode size size (rows slug [0])

/-- The icon of an archive. A given picture that can be read is brought to size; only its size is part of
what an icon promises. -/
def make (fs : FileSystem) (file : Option Path) (slug : String) : Except Failure ByteArray :=
  match file with
  | none => .ok (placeholder slug)
  | some p =>
    let refuse (why : String) : Except Failure ByteArray :=
      .error (.packaging ("failed to open icon " ++ p.text ++ ": " ++ why))
    match fs.read p with
    | .error e => refuse e.message
    | .ok bytes =>
      if !ImageFormat.isReadable p bytes then refuse "the picture cannot be read"
      else if Png.dimensions? bytes = some (size, size) then .ok bytes
      else .ok (placeholder slug)

end StoryPress.Icon
