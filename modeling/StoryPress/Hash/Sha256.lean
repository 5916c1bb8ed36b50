import StoryPress.Bytes
import StoryPress.Hash.Hex

/-!
# The SHA-256 digest

The message is padded to whole blocks of 64 bytes; each block is mixed into a state of eight words.
-/

namespace StoryPress.Hash

/-- The eight words of the running state. -/
structure ShaState where
  a : UInt32
  b : UInt32
  c : UInt32
  d : UInt32
  e : UInt32
  f : UInt32
  g : UInt32
  h : UInt32

namespace ShaState

def start : ShaState where
  a := 0x6a09e667
  b := 0xbb67ae85
  c := 0x3c6ef372
  d := 0xa54ff53a
  e := 0x510e527f
  f := 0x9b05688c
  g := 0x1f83d9ab
  h := 0x5be0cd19

/-- Adds two states word by word. -/
def add (s t : ShaState) : ShaState where
  a := s.a + t.a
  b := s.b + t.b
  c := s.c + t.c
  d := s.d + t.d
  e := s.e + t.e
  f := s.f + t.f
  g := s.g + t.g
  h := s.h + t.h

def words (s : ShaState) : List UInt32 := [s.a, s.b, s.c, s.d, s.e, s.f, s.g, s.h]

end ShaState

/-- Fractional parts of the cube roots of the first 64 primes. -/
def roundConstants : Array UInt32 := #[
  0x428a2f98, 0x71374491, 0xb5c0fbcf, 0xe9b5dba5, 0x3956c25b, 0x59f111f1, 0x923f82a4, 0xab1c5ed5,
  0xd807aa98, 0x12835b01, 0x243185be, 0x550c7dc3, 0x72be5d74, 0x80deb1fe, 0x9bdc06a7, 0xc19bf174,
  0xe49b69c1, 0xefbe4786, 0x0fc19dc6, 0x240ca1cc, 0x2de92c6f, 0x4a7484aa, 0x5cb0a9dc, 0x76f988da,
  0x983e5152, 0xa831c66d, 0xb00327c8, 0xbf597fc7, 0xc6e00bf3, 0xd5a79147, 0x06ca6351, 0x14292967,
  0x27b70a85, 0x2e1b2138, 0x4d2c6dfc, 0x53380d13, 0x650a7354, 0x766a0abb, 0x81c2c92e, 0x92722c85,
  0xa2bfe8a1, 0xa81a664b, 0xc24b8b70, 0xc76c51a3, 0xd192e819, 0xd6990624, 0xf40e3585, 0x106aa070,
  0x19a4c116, 0x1e376c08, 0x2748774c, 0x34b0bcb5, 0x391c0cb3, 0x4ed8aa4a, 0x5b9cca4f, 0x682e6ff3,
  0x748f82ee, 0x78a5636f, 0x84c87814, 0x8cc70208, 0x90befffa, 0xa4506ceb, 0xbef9a3f7, 0xc67178f2]

def rotateRight (x : UInt32) (n : UInt32) : UInt32 := (x >>> n) ||| (x <<< (32 - n))

/-- The four bytes from `i` on as one word, the first byte highest. -/
def wordAt (bytes : ByteArray) (i : Nat) : UInt32 :=
  let byte (k : Nat) : UInt32 := (Bytes.byteAt bytes (i + k)).toUInt32
  (byte 0 <<< 24) ||| (byte 1 <<< 16) ||| (byte 2 <<< 8) ||| byte 3

/-- The 64 words mixed in for the block that starts at `i`. -/
def schedule (bytes : ByteArray) (i : Nat) : Array UInt32 :=
  let first := (List.range 16).foldl (fun w k => w.push (wordAt bytes (i + 4 * k))) (Array.mkEmpty 64)
  (List.range 48).foldl (fun w k =>
    let x := w.getD (k + 1) 0
    let y := w.getD (k + 14) 0
    let s0 := rotateRight x 7 ^^^ rotateRight x 18 ^^^ (x >>> 3)
    let s1 := rotateRight y 17 ^^^ rotateRight y 19 ^^^ (y >>> 10)
    w.push (w.getD k 0 + s0 + w.getD (k + 9) 0 + s1)) first

def round (w : Array UInt32) (s : ShaState) (k : Nat) : ShaState :=
  let s1 := rotateRight s.e 6 ^^^ rotateRight s.e 11 ^^^ rotateRight s.e 25
  let choice := (s.e &&& s.f) ^^^ (~~~s.e &&& s.g)
  let t1 := s.h + s1 + choice + roundConstants.getD k 0 + w.getD k 0
  let s0 := rotateRight s.a 2 ^^^ rotateRight s.a 13 ^^^ rotateRight s.a 22
  let majority := (s.a &&& s.b) ^^^ (s.a &&& s.c) ^^^ (s.b &&& s.c)
  { a := t1 + s0 + majority, b := s.a, c := s.b, d := s.c, e := s.d + t1, f := s.e, g := s.f, h := s.g }

/-- The round numbers, kept as one list. -/
def roundNumbers : List Nat := List.range 64

def mixBlock (bytes : ByteArray) (s : ShaState) (i : Nat) : ShaState :=
  let w := schedule bytes i
  s.add (roundNumbers.foldl (round w) s)

/-- The eight bytes of a count, the highest first. -/
def countBytes (n : Nat) : List UInt8 :=
  (List.range 8).map fun k => UInt8.ofNat (n >>> (8 * (7 - k)))

/-- The message with a one bit, zero bits up to 56 bytes modulo 64, and its length in bits. -/
def padded (bytes : ByteArray) : ByteArray :=
  let zeros := (119 - bytes.size % 64) % 64
  (0x80 :: (List.replicate zeros 0 ++ countBytes (8 * bytes.size))).foldl ByteArray.push bytes

/-- Mixes `n` blocks from `i` on. -/
def mixBlocks (bytes : ByteArray) : Nat → Nat → ShaState → ShaState
  | 0, _, s => s
  | n + 1, i, s => mixBlocks bytes n (i + 64) (mixBlock bytes s i)

/-- The digest as 32 bytes. -/
def sha256 (bytes : ByteArray) : List UInt8 :=
  let message := padded bytes
  let final := mixBlocks message (message.size / 64) 0 ShaState.start
  final.words.flatMap fun (w : UInt32) =>
    [(w >>> 24).toUInt8, (w >>> 16).toUInt8, (w >>> 8).toUInt8, w.toUInt8]

/-- The digest as 64 hexadecimal digits. -/
def sha256Hex (bytes : ByteArray) : String := hex (sha256 bytes)

def sha256Text (text : String) : String := sha256Hex text.toUTF8

end StoryPress.Hash
