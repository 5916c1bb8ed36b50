import StoryPress.Deflate.Inflate
import StoryPress.Deflate.Stored
import StoryPress.OrderedMap

/-!
# ZIP files

An archive is written as a record for each entry, then a directory of the entries, then an end record. Every
entry has the same time, the first of January 1980, and the same permissions, so equal entries give equal
files.
-/

namespace StoryPress.Zip

/-- The version of the format that is needed to read an entry. -/
def version : Nat := 20

/-- Deflate. -/
def method : Nat := 8

/-- The first of January 1980 as a date of the format. -/
def date : Nat := 33

/-- An ordinary file that its owner can write and all can read. -/
def mode : Nat := 0o100644

/-- An entry with its data as it is stored. -/
structure Packed where
  name : ByteArray
  data : ByteArray
  crc : Nat
  size : Nat

def Packed.ofEntry (name : String) (content : ByteArray) : Packed :=
  ⟨name.toUTF8, Deflate.stored content, (Hash.crc32 content).toNat, content.size⟩

/-- Names outside ASCII are marked as UTF-8. -/
def Packed.flags (p : Packed) : Nat := if p.name.toList.all (· < 128) then 0 else 0x800

/-- The fields that a record and its directory entry share. -/
def Packed.fields (p : Packed) : List UInt8 :=
  Bytes.little16 version ++ Bytes.little16 p.flags ++ Bytes.little16 method ++ Bytes.little16 0 ++
    Bytes.little16 date ++ Bytes.little32 p.crc ++ Bytes.little32 p.data.size ++ Bytes.little32 p.size ++
    Bytes.little16 p.name.size ++ Bytes.little16 0

def Packed.record (p : Packed) : ByteArray :=
  Bytes.ofList (Bytes.little32 0x04034B50 ++ p.fields) ++ p.name ++ p.data

/-- The directory entry of a record that starts at byte `offset`. -/
def Packed.directory (p : Packed) (offset : Nat) : ByteArray :=
  Bytes.ofList (Bytes.little32 0x02014B50 ++ Bytes.little16 (3 * 256 + version) ++ p.fields ++
    Bytes.little16 0 ++ Bytes.little16 0 ++ Bytes.little16 0 ++ Bytes.little32 (mode * 65536) ++
    Bytes.little32 offset) ++ p.name

/-- The file of an archive. -/
def write (entries : List (String × ByteArray)) : ByteArray :=
  let packed := entries.map fun (name, content) => Packed.ofEntry name content
  let (records, directory) := packed.foldl (fun ((records, directory) : ByteArray × ByteArray) p =>
    (records ++ p.record, directory ++ p.directory records.size)) (ByteArray.empty, ByteArray.empty)
  let count := Bytes.little16 packed.length
  records ++ directory ++ Bytes.ofList (Bytes.little32 0x06054B50 ++ Bytes.little16 0 ++ Bytes.little16 0 ++
    count ++ count ++ Bytes.little32 directory.size ++ Bytes.little32 records.size ++ Bytes.little16 0)

/-- An entry as it is read. -/
structure Entry where
  name : String
  mode : Nat
  content : ByteArray

/-- Reads the entry that a directory entry at byte `i` describes, and says where the next one starts. -/
def entryAt? (bytes : ByteArray) (i : Nat) : Option (Entry × Nat) := do
  if Bytes.little32At bytes i ≠ 0x02014B50 then none
  else
    let nameSize := Bytes.little16At bytes (i + 28)
    let next := i + 46 + nameSize + Bytes.little16At bytes (i + 30) + Bytes.little16At bytes (i + 32)
    let name ← Bytes.text? (Bytes.slice bytes (i + 46) nameSize)
    let start := Bytes.little32At bytes (i + 42)
    if Bytes.little32At bytes start ≠ 0x04034B50 then none
    else
      let data := start + 30 + Bytes.little16At bytes (start + 26) + Bytes.little16At bytes (start + 28)
      let content ←
        match Bytes.little16At bytes (i + 10) with
        | 8 => Deflate.inflate? bytes data
        | 0 => some (Bytes.slice bytes data (Bytes.little32At bytes (i + 24)))
        | _ => none
      return (⟨name, Bytes.little32At bytes (i + 38) / 65536, content⟩, next)

/-- Reads `n` directory entries from byte `i` on. -/
def entriesFrom (bytes : ByteArray) : Nat → Nat → Option (List Entry)
  | 0, _ => some []
  | n + 1, i => do
    let (e, next) ← entryAt? bytes i
    let rest ← entriesFrom bytes n next
    return e :: rest

/-- The entries of a file that ends in an end record without a comment. -/
def read? (bytes : ByteArray) : Option (List Entry) :=
  let i := bytes.size - 22
  if bytes.size < 22 || Bytes.little32At bytes i ≠ 0x06054B50 then none
  else entriesFrom bytes (Bytes.little16At bytes (i + 10)) (Bytes.little32At bytes (i + 16))

end StoryPress.Zip
