/-!
# Numbers in bytes

Reading and writing numbers of two or four bytes in either order. A byte past the end reads as zero.
-/

namespace StoryPress.Bytes

/-- Bytes are compared as core compares them, whatever else is imported. -/
instance (priority := 2000) instDecidableEqBytes : DecidableEq ByteArray := ByteArray.instDecidableEq

def byteAt (bytes : ByteArray) (i : Nat) : UInt8 := if h : i < bytes.size then bytes[i] else 0

def natAt (bytes : ByteArray) (i : Nat) : Nat := (byteAt bytes i).toNat

/-- Four bytes, the highest first. -/
def big32At (bytes : ByteArray) (i : Nat) : Nat :=
  ((natAt bytes i * 256 + natAt bytes (i + 1)) * 256 + natAt bytes (i + 2)) * 256 + natAt bytes (i + 3)

/-- Two bytes, the highest first. -/
def big16At (bytes : ByteArray) (i : Nat) : Nat := natAt bytes i * 256 + natAt bytes (i + 1)

/-- Two bytes, the lowest first. -/
def little16At (bytes : ByteArray) (i : Nat) : Nat := natAt bytes i + 256 * natAt bytes (i + 1)

/-- Four bytes, the lowest first. -/
def little32At (bytes : ByteArray) (i : Nat) : Nat := little16At bytes i + 65536 * little16At bytes (i + 2)

def big32 (n : Nat) : List UInt8 :=
  [UInt8.ofNat (n >>> 24), UInt8.ofNat (n >>> 16), UInt8.ofNat (n >>> 8), UInt8.ofNat n]

def little16 (n : Nat) : List UInt8 := [UInt8.ofNat n, UInt8.ofNat (n / 256)]

def little32 (n : Nat) : List UInt8 := little16 n ++ little16 (n / 65536)

def ofList (bytes : List UInt8) : ByteArray := bytes.foldl ByteArray.push ByteArray.empty

def slice (bytes : ByteArray) (start length : Nat) : ByteArray := bytes.extract start (start + length)

/-- The text of the bytes, if they are valid UTF-8. -/
def text? (bytes : ByteArray) : Option String := String.fromUTF8? bytes

end StoryPress.Bytes
