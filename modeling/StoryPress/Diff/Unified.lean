import StoryPress.Diff.Slide
import StoryPress.OrderedMap
import StoryPress.Text.Lines
import StoryPress.Text.Pieces

/-!
# Unified diffs

The edits of two texts in groups with three lines of context. A range of one line is written by its number
alone, and an empty range by the number of the line before it.
-/

namespace StoryPress.Diff

/-- Lines of context around each group. -/
def contextLines : Nat := 3

/-- Longer diffs are cut. -/
def maxLines : Nat := 200

/-- Keeps `n` of the equal lines at the end of the list of edits. -/
private def trimLast (n : Nat) : List Edit → List Edit
  | [] => []
  | [.equal o w l] => [.equal o w (min l n)]
  | e :: rest => e :: trimLast n rest

/-- Keeps the last `n` of the equal lines at the start. -/
private def trimFirst (n : Nat) : List Edit → List Edit
  | .equal o w l :: rest => .equal (o + (l - n)) (w + (l - n)) (l - (l - n)) :: rest
  | es => es

/-- Splits edits where more than `2 * n` lines are equal; `reversed` is the group being read. -/
private def splitGroups (n : Nat) (reversed : List Edit) : List Edit → List (List Edit)
  | [] =>
    match reversed with
    | [] | [.equal _ _ _] => []
    | es => [es.reverse]
  | .equal o w l :: rest =>
    if 2 * n < l then
      (.equal o w n :: reversed).reverse :: splitGroups n [.equal (o + (l - n)) (w + (l - n)) n] rest
    else splitGroups n (.equal o w l :: reversed) rest
  | e :: rest => splitGroups n (e :: reversed) rest

/-- The groups of edits with at most `n` equal lines around them. -/
def groups (n : Nat) (edits : List Edit) : List (List Edit) :=
  splitGroups n [] (trimLast n (trimFirst n edits))

/-- A range of lines in the head of a group. -/
def rangeText (start finish : Nat) : String :=
  match finish - start with
  | 0 => toString start ++ ",0"
  | 1 => toString (start + 1)
  | length => toString (start + 1) ++ "," ++ toString length

/-- A line with its mark; a note follows one without an end. -/
def markedLine (mark line : String) : String :=
  let ended := match line.toList.getLast? with
    | some c => c = '\n' || c = '\r'
    | none => false
  mark ++ line ++ if ended then "" else "\n\\ No newline at end of file\n"

private def marked (mark : String) (lines : Array String) (start length : Nat) : String :=
  String.join ((lines.extract start (start + length)).toList.map (markedLine mark))

/-- The lines of an edit. -/
def editText (old new : Array String) : Edit → String
  | .equal o _ l => marked " " old o l
  | .delete o l _ => marked "-" old o l
  | .insert _ w l => marked "+" new w l
  | .replace o l w m => marked "-" old o l ++ marked "+" new w m

/-- A group with its head. -/
def groupText (old new : Array String) (group : List Edit) : String :=
  match group.head?, group.getLast? with
  | some first, some last =>
    "@@ -" ++ rangeText first.oldStart (last.oldStart + last.oldLength) ++ " +" ++
      rangeText first.newStart (last.newStart + last.newLength) ++ " @@\n" ++
      String.join (group.map (editText old new))
  | _, _ => ""

/-- Numbers for lines, the same for equal lines. -/
def number (lines : List String) (known : OrderedMap String Nat) : List Nat × OrderedMap String Nat :=
  let (numbers, known) := lines.foldl (fun ((done, known) : List Nat × OrderedMap String Nat) line =>
    match known.get? line with
    | some n => (n :: done, known)
    | none => (known.size :: done, known.insert line known.size)) ([], known)
  (numbers.reverse, known)

/-- The whole diff of a file. -/
def fullText (path old new : String) : String :=
  let oldLines := Text.withEnds old
  let newLines := Text.withEnds new
  let (oldNumbers, known) := number oldLines ∅
  let (newNumbers, _) := number newLines known
  let found := groups contextLines (Sides.tidyEdits ⟨oldNumbers.toArray, newNumbers.toArray⟩)
  if found.isEmpty then ""
  else
    "--- a/" ++ path ++ "\n+++ b/" ++ path ++ "\n" ++
      String.join (found.map (groupText oldLines.toArray newLines.toArray))

/-- The diff of a file, cut after `maxLines` lines, and whether it was cut. -/
def unified (path old new : String) : String × Bool :=
  let text := fullText path old new
  let lines := Text.lines text
  if lines.length ≤ maxLines then (text, false)
  else
    (String.join ((lines.take maxLines).map (· ++ "\n")) ++ "... (" ++ toString (lines.length - maxLines) ++
      " more lines)\n", true)

end StoryPress.Diff
