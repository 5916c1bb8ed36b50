import StoryPress.Bytes
import StoryPress.Hash.Crc32

/-!
# Deflate streams of stored blocks

Data can be written without compression, in blocks of at most 65535 bytes.
-/

namespace StoryPress.Deflate

/-- The largest stored block. -/
def maxStored : Nat := 65535

/-- Writes `count` further blocks from byte `i` on; the last one is marked. -/
def storedFrom (bytes : ByteArray) : Nat → Nat → ByteArray → ByteArray
  | 0, _, out => out
  | count + 1, i, out =>
    let length := min maxStored (bytes.size - i)
    let header := (if count = 0 then 1 else 0) :: (Bytes.little16 length ++ Bytes.little16 (65535 - length))
    storedFrom bytes count (i + length) (header.foldl ByteArray.push out ++ Bytes.slice bytes i length)

/-- A stream that inflates to the given bytes. -/
def stored (bytes : ByteArray) : ByteArray :=
  storedFrom bytes (max 1 ((bytes.size + maxStored - 1) / maxStored)) 0 ByteArray.empty

/-- The stream between the header and the checksum of the zlib format. -/
def zlib (bytes : ByteArray) : ByteArray :=
  Bytes.ofList [0x78, 0x01] ++ stored bytes ++ Bytes.ofList (Bytes.big32 (Hash.adler32 bytes).toNat)

end StoryPress.Deflate
