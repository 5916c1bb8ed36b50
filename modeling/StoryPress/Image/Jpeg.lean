import StoryPress.Bytes

/-!
# JPEG files

A JPEG file is a list of marked segments. The size stands in the frame segment, which comes before the first
scan.
-/

namespace StoryPress.Jpeg

/-- Markers that stand alone. -/
def isBare (marker : Nat) : Bool := marker = 0x01 || (0xD0 ≤ marker && marker ≤ 0xD8)

/-- Frames of sequential and progressive pictures. -/
def isFrame (marker : Nat) : Bool := marker = 0xC0 || marker = 0xC1 || marker = 0xC2

/-- Frames of kinds that are not read. -/
def isForeignFrame (marker : Nat) : Bool :=
  0xC3 ≤ marker && marker ≤ 0xCF && marker ≠ 0xC4 && marker ≠ 0xC8 && marker ≠ 0xCC

/-- The size in a frame segment whose length stands at byte `i`. -/
def frameSize? (bytes : ByteArray) (i : Nat) : Option (Nat × Nat) :=
  let height := Bytes.big16At bytes (i + 3)
  let width := Bytes.big16At bytes (i + 5)
  let components := Bytes.natAt bytes (i + 7)
  if Bytes.natAt bytes (i + 2) = 8 && 0 < width && 0 < height && [1, 3, 4].contains components &&
      Bytes.big16At bytes i = 8 + 3 * components then some (width, height) else none

/-- Reads segments from byte `i` up to the first scan, with the size found so far. -/
def segmentsFrom (bytes : ByteArray) : Nat → Nat → Option (Nat × Nat) → Option (Nat × Nat)
  | 0, _, _ => none
  | fuel + 1, i, size =>
    if bytes.size ≤ i + 1 then none
    else if Bytes.natAt bytes i ≠ 0xFF then segmentsFrom bytes fuel (i + 1) size
    else
      let marker := Bytes.natAt bytes (i + 1)
      if marker = 0xFF || marker = 0 then segmentsFrom bytes fuel (i + 1) size
      else if isBare marker then segmentsFrom bytes fuel (i + 2) size
      else if marker = 0xD9 || isForeignFrame marker then none
      else
        let length := Bytes.big16At bytes (i + 2)
        if length < 2 || bytes.size < i + 2 + length then none
        else if marker = 0xDA then size
        else if isFrame marker then
          match frameSize? bytes (i + 2) with
          | some found => segmentsFrom bytes fuel (i + 2 + length) (some found)
          | none => none
        else segmentsFrom bytes fuel (i + 2 + length) size

/-- The size of a picture whose headers can be read. -/
def dimensions? (bytes : ByteArray) : Option (Nat × Nat) :=
  if Bytes.big16At bytes 0 = 0xFFD8 then segmentsFrom bytes bytes.size 2 none else none

end StoryPress.Jpeg
