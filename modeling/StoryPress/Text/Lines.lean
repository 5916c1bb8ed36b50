/-!
# Lines

* `withEnds`: the lines of a text with their ends; a line ends with a newline, a carriage return, or both in
  that order of return and newline;
* `lines`: the lines between newlines without their ends; a carriage return before a newline belongs to the
  end.
-/

namespace StoryPress.Text

/-- The lines of `cs` with their ends; `reversed` is the line being read. -/
def withEndsFrom (reversed : List Char) : List Char → List (List Char)
  | [] => if reversed.isEmpty then [] else [reversed.reverse]
  | '\r' :: '\n' :: rest => ('\n' :: '\r' :: reversed).reverse :: withEndsFrom [] rest
  | c :: rest =>
    if c = '\n' || c = '\r' then (c :: reversed).reverse :: withEndsFrom [] rest
    else withEndsFrom (c :: reversed) rest

def withEnds (s : String) : List String := (withEndsFrom [] s.toList).map String.ofList

/-- A line without a carriage return at its end; `reversed` is the line. -/
private def finishLine (reversed : List Char) : List Char :=
  match reversed with
  | '\r' :: rest => rest.reverse
  | cs => cs.reverse

/-- The lines of `cs`; `reversed` is the line being read. -/
def linesFrom (reversed : List Char) : List Char → List (List Char)
  | [] => if reversed.isEmpty then [] else [reversed.reverse]
  | c :: rest => if c = '\n' then finishLine reversed :: linesFrom [] rest else linesFrom (c :: reversed) rest

def lines (s : String) : List String := (linesFrom [] s.toList).map String.ofList

theorem flatten_withEndsFrom (reversed cs : List Char) :
    (withEndsFrom reversed cs).flatten = reversed.reverse ++ cs := by
  fun_induction withEndsFrom reversed cs <;> simp_all

end StoryPress.Text
