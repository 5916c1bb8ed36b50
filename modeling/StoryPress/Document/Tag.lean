import StoryPress.Json.Record
import StoryPress.Text.Blank

/-!
# Viewpoint tags

A tag names a viewpoint: by its id alone, or by an id with a display name. Timelines and worlds take a tag
only in its exact form (`read`); scenes take what can be found of one in any value (`find?`).
-/

namespace StoryPress

open Json (Tree Reading)

inductive ViewpointTag where
  | bare (id : String)
  | named (id : String) (name : Option String)
deriving DecidableEq, Inhabited

namespace ViewpointTag

def id : ViewpointTag → String
  | bare id => id
  | named id _ => id

/-- The display name, if it is not blank. -/
def name? : ViewpointTag → Option String
  | bare _ => none
  | named _ name => name.filter fun n => !Text.isBlankText n

/-- The names under which a display name is found, the first before the others. -/
def nameKeys : List String := ["name", "display_name", "label"]

/-- The tag in a value in normal form; fields of the wrong kind are passed over. -/
def find? : Json → Option ViewpointTag
  | .string s => some (bare s)
  | v@(.object _) =>
    ((v.field? "id").bind Json.asString?).map fun id =>
      named id (nameKeys.findSome? fun key => (v.field? key).bind Json.asString?)
  | _ => none

/-- The object form. -/
def record : Json.Record (String × Option String) where
  start := ("", none)
  fields := [
    (Json.Field.of "id" Tree.text fun id t => (id, t.2)).needed,
    { Json.Field.of "name" (Tree.optional Tree.text) fun name t => (t.1, name) with
      aliases := ["display_name", "label"] }]

/-- The tag that a written value is exactly. -/
def ofWritten? : Json → Option ViewpointTag
  | .string s => some (bare s)
  | .object fields =>
    match record.read (Tree.ofJson (.object fields)) with
    | .ok (id, name) => some (named id name)
    | .error _ => none
  | _ => none

/-- Reads a tag in its exact form. The value is read whole before its form is looked at. -/
def read (t : Tree) : Reading ViewpointTag := do
  match ofWritten? (← t.raw) with
  | some tag => return tag
  | none => .error .shape

def toJson : ViewpointTag → Json
  | bare id => .string id
  | named id name => .object [("id", .string id), ("name", Json.ofText? name)]

end ViewpointTag

end StoryPress
