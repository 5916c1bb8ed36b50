import StoryPress.Text.Pieces

/-!
# Paths

A path is text, with names between slashes. Empty names and single periods are fillers: they name nothing,
except that a period at the front stands for the working directory. A path keeps the text it was built from,
fillers included.
-/

namespace StoryPress

structure Path where
  text : String
deriving DecidableEq, Inhabited

namespace Path

/-- A step of a path. -/
inductive Component where
  | root
  | here
  | up
  | name (s : String)
deriving DecidableEq, Inhabited

def Component.text : Component → String
  | root => "/"
  | here => "."
  | up => ".."
  | name s => s

def isAbsolute (p : Path) : Bool := p.text.toList.head? == some '/'

/-- The names between slashes, fillers included. -/
def segments (p : Path) : List String := Text.pieces '/' p.text

def isFiller (segment : String) : Bool := segment == "" || segment == "."

/-- Whether a slash follows the last name. -/
def endsInSlash (p : Path) : Bool := 1 < p.segments.length && p.segments.getLast? == some ""

/-- The segments without those that slashes at the end make. -/
def entrySegments (p : Path) : List String :=
  if p.endsInSlash then (p.segments.reverse.dropWhile (· == "")).reverse else p.segments

/-- Whether the path begins with a period of its own. -/
def startsHere (p : Path) : Bool := p.segments.head? == some "."

/-- The segments after the leading slash or period. -/
def body (p : Path) : List String :=
  if p.isAbsolute || p.startsHere then p.segments.tail else p.segments

/-- The leading slash or period. -/
def lead (p : Path) : List Component :=
  if p.isAbsolute then [.root] else if p.startsHere then [.here] else []

def componentOf (segment : String) : Component := if segment = ".." then .up else .name segment

/-- The steps of a path, without fillers. -/
def components (p : Path) : List Component :=
  p.lead ++ (p.body.filter fun s => !isFiller s).map componentOf

/-- A relative path starts in the directory `dir`; an absolute one replaces it. -/
def join (dir : Path) (rel : String) : Path :=
  if rel.toList.head? == some '/' then ⟨rel⟩
  else if dir.text.isEmpty || dir.text.toList.getLast? == some '/' then ⟨dir.text ++ rel⟩
  else ⟨dir.text ++ "/" ++ rel⟩

/-- The text of a leading slash or period and the segments after it. -/
def textOf (lead : List Component) (segments : List String) : String :=
  match lead with
  | [.root] => "/" ++ Text.joinWith "/" segments
  | [.here] => if segments.isEmpty then "." else "./" ++ Text.joinWith "/" segments
  | _ => Text.joinWith "/" segments

/-- The segments without fillers at their end. -/
def dropEndFillers (segments : List String) : List String :=
  (segments.reverse.dropWhile isFiller).reverse

/-- The path without its last component; nothing for an empty path and for the root. -/
def parent? (p : Path) : Option Path :=
  match dropEndFillers p.body with
  | [] => if !p.isAbsolute && p.startsHere then some ⟨""⟩ else none
  | segments => some ⟨textOf p.lead (dropEndFillers segments.dropLast)⟩

/-- The name that a path ends in. -/
def name? (p : Path) : Option String :=
  match p.components.getLast? with
  | some (.name s) => some s
  | _ => none

/-- A name in front of its last period and the extension after it; a period at the front starts no
extension. -/
def splitName (name : String) : String × Option String :=
  match Text.splitLast? '.' name with
  | some (stem, ext) => if stem.isEmpty then (name, none) else (stem, some ext)
  | none => (name, none)

def extension? (p : Path) : Option String := p.name?.bind fun n => (splitName n).2

def stem? (p : Path) : Option String := p.name?.map fun n => (splitName n).1

/-- The components after those of `root`. -/
def below? (root p : Path) : Option (List Component) :=
  if root.components.isPrefixOf p.components then some (p.components.drop root.components.length) else none

/-- The path below `root` with single slashes; nothing for `root` itself. -/
def slashBelow? (root p : Path) : Option String :=
  match below? root p with
  | none | some [] => none
  | some cs => some (Text.joinWith "/" (cs.map Component.text))

/-- Drops segments up to and including `n` that are no fillers, and the fillers after them. -/
def dropNames : Nat → List String → List String
  | 0, segments => segments.dropWhile isFiller
  | _ + 1, [] => []
  | n + 1, s :: rest => if isFiller s then dropNames (n + 1) rest else dropNames n rest

/-- The text of a path after the components of `root`, with the fillers inside it. -/
def textBelow? (root p : Path) : Option String :=
  if root.components.isPrefixOf p.components then
    let count := root.components.length
    if count = 0 then some (textOf p.lead (dropEndFillers p.body))
    else some (Text.joinWith "/" (dropEndFillers (dropNames (count - p.lead.length) p.body)))
  else none

/-- Adds an ending to the last name. -/
def append (p : Path) (ending : String) : Path := ⟨p.text ++ ending⟩

end Path

end StoryPress
