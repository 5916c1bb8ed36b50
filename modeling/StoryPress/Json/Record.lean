import StoryPress.Json.Tree

/-!
# Records

A record has fields in a declared order. It is written as an object, in any order and with fields that are
unknown and skipped, or as an array of its fields in the declared order. Each field changes the record as it
stands so far, which starts with the values for fields that are missing.
-/

namespace StoryPress.Json

/-- A field of a record of type `α`. -/
structure Field (α : Type) where
  name : String
  /-- Other names under which it is found. -/
  aliases : List String := []
  /-- Whether an object must hold it. -/
  required : Bool := false
  /-- Whether an array must reach it. -/
  positional : Bool := required
  read : Tree → α → Reading α

namespace Field

/-- A field that is read and stored. -/
def of {α β : Type} (name : String) (read : Tree → Reading β) (store : β → α → α) : Field α where
  name := name
  read t r := (store · r) <$> read t

/-- The same field, which must be there. -/
def needed {α : Type} (f : Field α) : Field α := { f with required := true, positional := true }

def called {α : Type} (f : Field α) (key : String) : Bool := f.name == key || f.aliases.contains key

end Field

/-- The fields of a record, and the record in which none has been read. -/
structure Record (α : Type) where
  fields : List (Field α)
  start : α

namespace Record

variable {α : Type}

/-- Reads the members of an object. A known field that comes twice is refused before its second value. -/
def readMembers (r : Record α) (seen : List String) (done : α) :
    List (Option String × Tree) → Reading (List String × α)
  | [] => .ok (seen, done)
  | (none, _) :: _ => .error .malformed
  | (some key, t) :: rest =>
    match r.fields.find? (·.called key) with
    | none => do
      t.skip
      readMembers r seen done rest
    | some f =>
      if seen.contains f.name then .error .shape
      else do
        let next ← f.read t done
        readMembers r (f.name :: seen) next rest

/-- Reads the fields of an array in their order. The end may come early if every field left has a default. -/
def readItems (ending : Ending) (done : α) : List (Field α) → List Tree → Reading α
  | [], [] => do
    ending.finish
    return done
  | [], _ :: _ => if ending = .tolerant then .ok done else .error .malformed
  | f :: fields, [] => do
    ending.finish
    if f.positional then .error .shape else readItems ending done fields []
  | f :: fields, t :: ts => do
    let next ← f.read t done
    readItems ending next fields ts

/-- Reads a record in either form. -/
def read (r : Record α) : Tree → Reading α
  | .object members ending => do
    let (seen, done) ← r.readMembers [] r.start members
    ending.finish
    if r.fields.all fun f => !f.required || seen.contains f.name then return done else .error .shape
  | .array ts ending => readItems ending r.start r.fields ts
  | .deep _ => .error .malformed
  | t => t.mismatch

end Record

end StoryPress.Json
