import StoryPress.Bytes

/-!
# Inflating

Reads a deflate stream: stored blocks, and blocks with fixed or dynamic codes. A code is a table of the codes
of each length; canonical codes of one length follow each other.
-/

namespace StoryPress.Deflate

/-- A stream, and the number of the next bit in it. -/
structure Bits where
  bytes : ByteArray
  next : Nat

namespace Bits

def bit? (b : Bits) : Option (Nat × Bits) :=
  if b.next / 8 < b.bytes.size then
    some ((Bytes.natAt b.bytes (b.next / 8) >>> (b.next % 8)) % 2, { b with next := b.next + 1 })
  else none

/-- A number of `n` bits, the lowest first. -/
def take? : Nat → Bits → Option (Nat × Bits)
  | 0, b => some (0, b)
  | n + 1, b => do
    let (low, b) ← b.bit?
    let (high, b) ← take? n b
    return (low + 2 * high, b)

end Bits

/-- A canonical code: how many codes of each length there are, and the symbols in the order of their codes. -/
structure Code where
  counts : Array Nat
  symbols : Array Nat

/-- The code whose symbols have the given lengths; length zero stands for an unused symbol. -/
def Code.ofLengths (lengths : List Nat) : Code where
  counts := ((List.range 16).map fun n => lengths.count n).toArray
  symbols := ((List.range' 1 15).flatMap fun n =>
    (lengths.zipIdx.filter fun (l, _) => l == n).map (·.2)).toArray

/-- Reads a symbol bit by bit. `first` is the first code of the length reached, `index` the place of its
symbol. -/
def Code.symbolFrom (code : Code) : Nat → Nat → Nat → Nat → Nat → Bits → Option (Nat × Bits)
  | 0, _, _, _, _, _ => none
  | fuel + 1, length, value, first, index, b => do
    let (bit, b) ← b.bit?
    let value := 2 * value + bit
    let first := 2 * first
    let count := code.counts.getD length 0
    if value < first + count then
      let s ← code.symbols[index + (value - first)]?
      return (s, b)
    else code.symbolFrom fuel (length + 1) value (first + count) (index + count) b

def Code.symbol? (code : Code) (b : Bits) : Option (Nat × Bits) := code.symbolFrom 15 1 0 0 0 b

/-- The shortest length of each length symbol and its extra bits. -/
def lengthTable : Array (Nat × Nat) := #[
  (3, 0), (4, 0), (5, 0), (6, 0), (7, 0), (8, 0), (9, 0), (10, 0), (11, 1), (13, 1), (15, 1), (17, 1),
  (19, 2), (23, 2), (27, 2), (31, 2), (35, 3), (43, 3), (51, 3), (59, 3), (67, 4), (83, 4), (99, 4),
  (115, 4), (131, 5), (163, 5), (195, 5), (227, 5), (258, 0)]

/-- The shortest distance of each distance symbol and its extra bits. -/
def distanceTable : Array (Nat × Nat) := #[
  (1, 0), (2, 0), (3, 0), (4, 0), (5, 1), (7, 1), (9, 2), (13, 2), (17, 3), (25, 3), (33, 4), (49, 4),
  (65, 5), (97, 5), (129, 6), (193, 6), (257, 7), (385, 7), (513, 8), (769, 8), (1025, 9), (1537, 9),
  (2049, 10), (3073, 10), (4097, 11), (6145, 11), (8193, 12), (12289, 12), (16385, 13), (24577, 13)]

/-- Repeats `n` bytes that start `distance` bytes before the end. -/
def copyBack (distance : Nat) : Nat → ByteArray → ByteArray
  | 0, out => out
  | n + 1, out => copyBack distance n (out.push (Bytes.byteAt out (out.size - distance)))

/-- Reads the symbols of a block up to its end. -/
def blockFrom (literals distances : Code) : Nat → Bits → ByteArray → Option (Bits × ByteArray)
  | 0, _, _ => none
  | fuel + 1, b, out => do
    let (s, b) ← literals.symbol? b
    if s < 256 then blockFrom literals distances fuel b (out.push (UInt8.ofNat s))
    else if s = 256 then return (b, out)
    else
      let (base, extra) ← lengthTable[s - 257]?
      let (more, b) ← b.take? extra
      let (d, b) ← distances.symbol? b
      let (far, extra) ← distanceTable[d]?
      let (further, b) ← b.take? extra
      let distance := far + further
      if out.size < distance then none
      else blockFrom literals distances fuel b (copyBack distance (base + more) out)

def fixedLiterals : Code :=
  .ofLengths (List.replicate 144 8 ++ List.replicate 112 9 ++ List.replicate 24 7 ++ List.replicate 8 8)

def fixedDistances : Code := .ofLengths (List.replicate 30 5)

/-- The order in which the lengths of the code for lengths are written. -/
def lengthOrder : List Nat := [16, 17, 18, 0, 8, 7, 9, 6, 10, 5, 11, 4, 12, 3, 13, 2, 14, 1, 15]

/-- Reads the lengths of two codes, with their runs; `done` holds them in reverse. -/
def lengthsFrom (code : Code) (total : Nat) : Nat → Bits → List Nat → Option (List Nat × Bits)
  | 0, _, _ => none
  | fuel + 1, b, done =>
    if total < done.length then none
    else if done.length = total then some (done.reverse, b)
    else do
      let (s, b) ← code.symbol? b
      if s < 16 then lengthsFrom code total fuel b (s :: done)
      else if s = 16 then
        let last ← done.head?
        let (n, b) ← b.take? 2
        lengthsFrom code total fuel b (List.replicate (n + 3) last ++ done)
      else
        let (n, b) ← b.take? (if s = 17 then 3 else 7)
        lengthsFrom code total fuel b (List.replicate (n + if s = 17 then 3 else 11) 0 ++ done)

/-- Reads the two codes of a dynamic block. -/
def dynamicCodes (b : Bits) : Option (Code × Code × Bits) := do
  let (l, b) ← b.take? 5
  let (d, b) ← b.take? 5
  let (c, b) ← b.take? 4
  let (given, b) ← (List.range (c + 4)).foldlM (fun ((given, b) : List Nat × Bits) _ => do
    let (n, b) ← b.take? 3
    return (given ++ [n], b)) ([], b)
  let lengths := (List.range 19).map fun s =>
    ((lengthOrder.zip given).lookup s).getD 0
  let total := (l + 257) + (d + 1)
  let (all, b) ← lengthsFrom (.ofLengths lengths) total (total + 1) b []
  return (.ofLengths (all.take (l + 257)), .ofLengths (all.drop (l + 257)), b)

/-- Reads one block; says whether it was the last. -/
def block (b : Bits) (out : ByteArray) : Option (Bool × Bits × ByteArray) := do
  let (last, b) ← b.bit?
  let (kind, b) ← b.take? 2
  let fuel := 8 * b.bytes.size + 1
  match kind with
  | 0 =>
    let i := (b.next + 7) / 8
    let length := Bytes.little16At b.bytes i
    if b.bytes.size < i + 4 + length || Bytes.little16At b.bytes (i + 2) ≠ 65535 - length then none
    else return (last = 1, ⟨b.bytes, 8 * (i + 4 + length)⟩, out ++ Bytes.slice b.bytes (i + 4) length)
  | 1 =>
    let (b, out) ← blockFrom fixedLiterals fixedDistances fuel b out
    return (last = 1, b, out)
  | 2 =>
    let (literals, distances, b) ← dynamicCodes b
    let (b, out) ← blockFrom literals distances fuel b out
    return (last = 1, b, out)
  | _ => none

/-- Reads blocks up to the last one. -/
def blocksFrom : Nat → Bits → ByteArray → Option ByteArray
  | 0, _, _ => none
  | fuel + 1, b, out => do
    let (last, b, out) ← block b out
    if last then return out else blocksFrom fuel b out

/-- The data of a deflate stream that starts at byte `i`. -/
def inflate? (bytes : ByteArray) (i : Nat) : Option ByteArray :=
  blocksFrom (8 * bytes.size + 1) ⟨bytes, 8 * i⟩ ByteArray.empty

end StoryPress.Deflate
