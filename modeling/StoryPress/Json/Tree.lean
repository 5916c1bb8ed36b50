import StoryPress.Json.Value

/-!
# Documents as far as they can be read

A text is read from left to right, and the first problem decides how it is refused. A `Tree` is a document
up to its first grammatical fault, so what a reader expects at each place can be compared with what is
there, in the order of the text. A value may be *read* or *skipped*; skipping asks less: a number may be
out of range, a string may hold half a surrogate pair, and containers may be nested to any depth.
-/

namespace StoryPress.Json

/-- Why a document is refused: it is not JSON, it ends too early, or it has the wrong shape. -/
inductive Category where
  | malformed
  | truncated
  | shape
deriving DecidableEq, Inhabited, Repr

/-- A grammatical fault, as it counts for a value that is read and for one that is skipped. -/
structure Fault where
  read : Category
  skipped : Category
deriving DecidableEq, Inhabited

/-- A fault that counts alike for both. -/
def Fault.always (c : Category) : Fault := ⟨c, c⟩

/-- How the list of parts of a container ends. -/
inductive Ending where
  /-- Its closing bracket follows the last part. -/
  | closed
  /-- It is closed, and further parts are let pass where a record ends. -/
  | tolerant
  /-- Neither a comma nor the closing bracket follows. -/
  | broken (fault : Fault)
deriving DecidableEq, Inhabited

inductive Tree where
  | null
  | bool (b : Bool)
  /-- No number if it is out of range. -/
  | number (n : Option Number)
  /-- No text if some character of it is none. -/
  | string (s : Option String)
  | array (items : List Tree) (ending : Ending)
  | object (members : List (Option String × Tree)) (ending : Ending)
  /-- A container nested too deep to be read. -/
  | deep (inner : Tree)
  | fault (fault : Fault)
deriving Inhabited

/-- What reading gives: a value, or the first problem. -/
abbrev Reading (α : Type) := Except Category α

namespace Ending

/-- The end of a container all of whose parts are read. -/
def finish : Ending → Reading Unit
  | closed | tolerant => .ok ()
  | broken f => .error f.read

/-- The end of a container whose parts are skipped. -/
def finishSkipped : Ending → Reading Unit
  | closed | tolerant => .ok ()
  | broken f => .error f.skipped

end Ending

namespace Tree

mutual

/-- The document of a value. -/
def ofJson : Json → Tree
  | .null => null
  | .bool b => bool b
  | .number n => number (some n)
  | .string s => string (some s)
  | .array items => array (ofItems items) .closed
  | .object fields => object (ofFields fields) .closed

def ofItems : List Json → List Tree
  | [] => []
  | v :: vs => ofJson v :: ofItems vs

def ofFields : List (String × Json) → List (Option String × Tree)
  | [] => []
  | (k, v) :: rest => (some k, ofJson v) :: ofFields rest

end

mutual

/-- Passes over a value. -/
def skip : Tree → Reading Unit
  | null | bool _ | number _ | string _ => .ok ()
  | array items ending => do skipItems items; ending.finishSkipped
  | object members ending => do skipMembers members; ending.finishSkipped
  | deep inner => skip inner
  | fault f => .error f.skipped

def skipItems : List Tree → Reading Unit
  | [] => .ok ()
  | t :: ts => do skip t; skipItems ts

def skipMembers : List (Option String × Tree) → Reading Unit
  | [] => .ok ()
  | (_, t) :: rest => do skip t; skipMembers rest

end

mutual

/-- Reads a value as it is written, with the fields of its objects in the order of the text. -/
def raw : Tree → Reading Json
  | null => .ok .null
  | bool b => .ok (.bool b)
  | number (some n) => .ok (.number n)
  | string (some s) => .ok (.string s)
  | number none | string none | deep _ => .error .malformed
  | array items ending => do
    let vs ← rawItems items
    ending.finish
    return .array vs
  | object members ending => do
    let fields ← rawMembers members
    ending.finish
    return .object fields
  | fault f => .error f.read

def rawItems : List Tree → Reading (List Json)
  | [] => .ok []
  | t :: ts => do
    let v ← raw t
    let vs ← rawItems ts
    return v :: vs

def rawMembers : List (Option String × Tree) → Reading (List (String × Json))
  | [] => .ok []
  | (none, _) :: _ => .error .malformed
  | (some k, t) :: rest => do
    let v ← raw t
    let vs ← rawMembers rest
    return (k, v) :: vs

end

/-- Reads any value. -/
def value (t : Tree) : Reading Json := Json.normalize <$> t.raw

/-- The refusal of a value of the wrong kind. A scalar is still read, so its own fault comes first; a
container is refused at its opening bracket. -/
def mismatch {α : Type} : Tree → Reading α
  | number none | string none => .error .malformed
  | fault f => .error f.read
  | null | bool _ | number (some _) | string (some _) | array _ _ | object _ _ | deep _ =>
    .error .shape

/-- What must be a text. -/
def text : Tree → Reading String
  | string (some s) => .ok s
  | t => t.mismatch

/-- What must be true or false. -/
def flag : Tree → Reading Bool
  | bool b => .ok b
  | t => t.mismatch

/-- Null stands for nothing. -/
def optional {α : Type} (read : Tree → Reading α) : Tree → Reading (Option α)
  | null => .ok none
  | t => some <$> read t

/-- Reads the items of a list one after the other. -/
def items {α : Type} (read : Tree → Reading α) : List Tree → Reading (List α)
  | [] => .ok []
  | t :: ts => do
    let v ← read t
    let vs ← items read ts
    return v :: vs

/-- What must be a list. -/
def list {α : Type} (read : Tree → Reading α) : Tree → Reading (List α)
  | array ts ending => do
    let vs ← items read ts
    ending.finish
    return vs
  | deep (array _ _) => .error .malformed
  | t => t.mismatch

end Tree

end StoryPress.Json
