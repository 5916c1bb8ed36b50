import StoryPress.Naming.Fresh
import StoryPress.Naming.Slug

/-!
# Label books

A label book gives out script labels, each once. Labels that the runtime keeps for itself are taken from the
start.
-/

namespace StoryPress

/-- The label of the switch menu. -/
def menuLabel : String := "route_menu"

/-- Labels that are never given out. -/
def reservedLabels : List String :=
  ["start", "main_menu", "quit", "after_load", "splashscreen", menuLabel]

structure LabelBook where
  used : List String := reservedLabels
deriving DecidableEq, Inhabited

namespace LabelBook

/-- The label asked for: the slug, with `lead` in front where it starts with a digit. The lead without
underscores at its end stands for an empty slug. -/
def wanted (raw lead : String) : String :=
  let slug := Naming.slug raw
  match slug.toList with
  | [] => String.ofList (lead.toList.reverse.dropWhile (· == '_')).reverse
  | c :: _ => if c.isDigit then lead ++ slug else slug

/-- Gives out a label for an authored text. -/
def allocate (book : LabelBook) (raw lead : String) : String × LabelBook :=
  let label := Naming.fresh book.used (wanted raw lead)
  (label, ⟨label :: book.used⟩)

def isUsed (book : LabelBook) (label : String) : Bool := book.used.contains label

end LabelBook

end StoryPress
