import StoryPress.Text.CaseTable

/-!
# Lower case

`lowerAscii` changes the letters A to Z alone. `lower` follows Unicode: a dotted capital I becomes two
characters, and a capital sigma is written in its final form at the end of a word.
-/

namespace StoryPress.Text

def lowerAscii (s : String) : String := String.ofList (s.toList.map Char.toLower)

private def inRanges (ranges : List (Nat × Nat)) (c : Char) : Bool :=
  ranges.any fun (first, last) => first ≤ c.toNat && c.toNat ≤ last

/-- The small form of a letter that has one of a single code point. -/
def lowerSimple (c : Char) : Char :=
  if c.toNat < 128 then c.toLower
  else
    match lowerRanges.find? (·.contains c.toNat) with
    | some r => Char.ofNat (Int.toNat (c.toNat + r.shift))
    | none => c

/-- Whether the first character that is not passed over is a letter with case. -/
def meetsCased (cs : List Char) : Bool :=
  match cs.dropWhile (inRanges ignorableRanges) with
  | [] => false
  | c :: _ => inRanges casedRanges c

/-- Lower case of `cs`, where `before` holds the characters in front of it, nearest first. -/
def lowerFrom : List Char → List Char → List Char
  | _, [] => []
  | before, c :: rest =>
    let small :=
      if c = 'Σ' then [if meetsCased before && !meetsCased rest then 'ς' else 'σ']
      else if c = 'İ' then ['i', '\u0307']
      else [lowerSimple c]
    small ++ lowerFrom (c :: before) rest

def lower (s : String) : String := String.ofList (lowerFrom [] s.toList)

end StoryPress.Text
