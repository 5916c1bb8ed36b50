/-!
# Checksums

CRC-32 over the reversed polynomial `0xEDB88320`, and Adler-32.
-/

namespace StoryPress.Hash

/-- One bit of a CRC step. -/
def crcShift (c : UInt32) : UInt32 := if c &&& 1 = 1 then (c >>> 1) ^^^ 0xEDB88320 else c >>> 1

/-- The remainder of each byte value. -/
def crcTable : Array UInt32 :=
  ((List.range 256).map fun n => (List.range 8).foldl (fun c _ => crcShift c) (UInt32.ofNat n)).toArray

def crcByte (c : UInt32) (b : UInt8) : UInt32 :=
  crcTable.getD ((c ^^^ b.toUInt32) &&& 0xFF).toNat 0 ^^^ (c >>> 8)

def crc32 (bytes : ByteArray) : UInt32 := bytes.foldl crcByte 0xFFFFFFFF ^^^ 0xFFFFFFFF

/-- Two running sums modulo 65521. -/
def adler32 (bytes : ByteArray) : UInt32 :=
  let (a, b) := bytes.foldl (fun ((a, b) : UInt32 × UInt32) x =>
    let a := (a + x.toUInt32) % 65521
    (a, (b + a) % 65521)) (1, 0)
  (b <<< 16) ||| a

end StoryPress.Hash
