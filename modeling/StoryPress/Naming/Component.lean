import StoryPress.Text.Blank

/-!
# Safe path components

An id that becomes the name of a file must be a single name on every common file system.
-/

namespace StoryPress.Naming

/-- Characters that some file system keeps for itself. -/
def isReserved (c : Char) : Bool :=
  c == '/' || c == '\\' || c == ':' || c == '*' || c == '?' || c == '"' || c == '<' || c == '>' ||
    c == '|'

/-- A safe component is not empty, is neither `.` nor `..`, ends in neither a period nor a space, and has
no reserved and no control character. -/
def isSafeComponent (id : String) : Bool :=
  let cs := id.toList
  !cs.isEmpty && cs != ['.'] && cs != ['.', '.'] &&
    cs.getLast? != some '.' && cs.getLast? != some ' ' &&
    cs.all fun c => !isReserved c && !Text.isControl c

end StoryPress.Naming
