import StoryPress.Deflate.Inflate
import StoryPress.Deflate.Stored

/-!
# PNG files

A PNG file is a signature and a list of chunks with checksums. The first chunk gives the size and the kind
of the pixels; the pixels follow in data chunks as one compressed stream of filtered rows.
-/

namespace StoryPress.Png

def signature : List UInt8 := [0x89, 0x50, 0x4E, 0x47, 0x0D, 0x0A, 0x1A, 0x0A]

/-- The size of a picture and how its pixels are stored. -/
structure Header where
  width : Nat
  height : Nat
  depth : Nat
  color : Nat
  interlaced : Bool

/-- A chunk: its name and where its data starts. -/
structure Chunk where
  name : String
  start : Nat
  length : Nat
deriving Inhabited

/-- Whether a chunk has the checksum of its name and data. -/
def Chunk.isIntact (bytes : ByteArray) (c : Chunk) : Bool :=
  c.start + c.length + 4 ≤ bytes.size &&
    Bytes.big32At bytes (c.start + c.length) =
      (Hash.crc32 (Bytes.slice bytes (c.start - 4) (c.length + 4))).toNat

/-- A chunk that a reader may pass over: its name starts with a small letter. -/
def Chunk.isOptional (c : Chunk) : Bool := c.name.toList.head?.any Char.isLower

/-- The chunk whose length stands at byte `i`. -/
def chunkAt? (bytes : ByteArray) (i : Nat) : Option Chunk :=
  if i + 8 ≤ bytes.size then
    some ⟨String.ofList ((List.range 4).map fun k => Char.ofNat (Bytes.natAt bytes (i + 4 + k))), i + 8,
      Bytes.big32At bytes i⟩
  else none

/-- The pixel kinds that the format knows, with their bit depths. -/
def isPixelKind (color depth : Nat) : Bool :=
  match color with
  | 0 => [1, 2, 4, 8, 16].contains depth
  | 2 | 4 | 6 => [8, 16].contains depth
  | 3 => [1, 2, 4, 8].contains depth
  | _ => false

def header? (bytes : ByteArray) : Option Header :=
  match chunkAt? bytes 8 with
  | none => none
  | some c =>
    let i := c.start
    let h : Header := ⟨Bytes.big32At bytes i, Bytes.big32At bytes (i + 4), Bytes.natAt bytes (i + 8),
      Bytes.natAt bytes (i + 9), Bytes.natAt bytes (i + 12) = 1⟩
    if (Bytes.slice bytes 0 8).toList = signature && c.name = "IHDR" && c.length = 13 && c.isIntact bytes &&
        0 < h.width && 0 < h.height && isPixelKind h.color h.depth &&
        Bytes.natAt bytes (i + 10) = 0 && Bytes.natAt bytes (i + 11) = 0 && Bytes.natAt bytes (i + 12) ≤ 1
    then some h else none

/-- Finds the first data chunk; every chunk before it that a reader needs must be intact. -/
def firstData? (bytes : ByteArray) : Nat → Nat → Option Chunk
  | 0, _ => none
  | fuel + 1, i =>
    match chunkAt? bytes i with
    | none => none
    | some c =>
      if c.name = "IDAT" then some c
      else if c.name = "IEND" || bytes.size < c.start + c.length + 4 ||
          !(c.isOptional || c.isIntact bytes) then none
      else firstData? bytes fuel (c.start + c.length + 4)

/-- The size of a picture whose file can be read up to its pixels. -/
def dimensions? (bytes : ByteArray) : Option (Nat × Nat) :=
  match header? bytes with
  | none => none
  | some h => (firstData? bytes bytes.size 33).map fun _ => (h.width, h.height)

/-- Whether a palette stands before the first data chunk; the pixels of color kind 3 are places in it. -/
def hasPalette (bytes : ByteArray) : Nat → Nat → Bool
  | 0, _ => false
  | fuel + 1, i =>
    match chunkAt? bytes i with
    | none => false
    | some c => c.name = "PLTE" || (c.name ≠ "IDAT" && hasPalette bytes fuel (c.start + c.length + 4))

/-- The data of the data chunks from one on. -/
def dataFrom (bytes : ByteArray) : Nat → Nat → ByteArray → Option ByteArray
  | 0, _, out => some out
  | fuel + 1, i, out =>
    match chunkAt? bytes i with
    | none => some out
    | some c =>
      if c.name ≠ "IDAT" then some out
      else if !c.isIntact bytes then none
      else dataFrom bytes fuel (c.start + c.length + 4) (out ++ Bytes.slice bytes c.start c.length)

/-- The number of samples of a pixel. -/
def samples (color : Nat) : Nat :=
  match color with
  | 2 => 3
  | 4 => 2
  | 6 => 4
  | _ => 1

/-- The passes of a picture as width and height: one, or seven if it is interlaced. -/
def Header.passes (h : Header) : List (Nat × Nat) :=
  if h.interlaced then
    [(0, 0, 8, 8), (4, 0, 8, 8), (0, 4, 4, 8), (2, 0, 4, 4), (0, 2, 2, 4), (1, 0, 2, 2), (0, 1, 1, 2)].map
      fun (x, y, dx, dy) => ((h.width + dx - 1 - x) / dx, (h.height + dy - 1 - y) / dy)
  else [(h.width, h.height)]

/-- Whether the rows of the passes are there, each after a filter that the format knows. -/
def rowsFit (data : ByteArray) (bitsPerPixel : Nat) : Nat → List (Nat × Nat) → Bool
  | _, [] => true
  | i, (w, h) :: rest =>
    if w = 0 || h = 0 then rowsFit data bitsPerPixel i rest
    else
      let row := (w * bitsPerPixel + 7) / 8 + 1
      i + row * h ≤ data.size && ((List.range h).all fun y => Bytes.natAt data (i + row * y) ≤ 4) &&
        rowsFit data bitsPerPixel (i + row * h) rest

/-- Whether all pixels of the picture can be read. -/
def isComplete (bytes : ByteArray) : Bool :=
  match header? bytes, firstData? bytes bytes.size 33 with
  | some h, some c =>
    let data := dataFrom bytes bytes.size (c.start - 8) ByteArray.empty
    (h.color ≠ 3 || hasPalette bytes bytes.size 33) &&
      match data.bind fun data => Deflate.inflate? data 2 with
      | some data => rowsFit data (samples h.color * h.depth) 0 h.passes
      | none => false
  | _, _ => false

def chunk (name : String) (data : ByteArray) : ByteArray :=
  let body := name.toUTF8 ++ data
  Bytes.ofList (Bytes.big32 data.size) ++ body ++ Bytes.ofList (Bytes.big32 (Hash.crc32 body).toNat)

/-- Writes a picture of eight-bit red, green, blue and alpha samples, given row by row with a zero in front
of each. -/
def encode (width height : Nat) (rows : ByteArray) : ByteArray :=
  Bytes.ofList signature ++
    chunk "IHDR" (Bytes.ofList (Bytes.big32 width ++ Bytes.big32 height ++ [8, 6, 0, 0, 0])) ++
    chunk "IDAT" (Deflate.zlib rows) ++ chunk "IEND" ByteArray.empty

end StoryPress.Png
