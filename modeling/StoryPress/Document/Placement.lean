import StoryPress.Document.Tag

/-!
# Placements

A timeline places scenes one after the other, some with viewpoint tags of their own.
-/

namespace StoryPress

open Json (Tree Reading)

inductive Placement where
  | bare (scene : String)
  | tagged (scene : String) (pov : Option ViewpointTag) (povs : List ViewpointTag)
deriving DecidableEq, Inhabited

namespace Placement

def scene : Placement → String
  | bare s => s
  | tagged s _ _ => s

/-- The tags of the placement itself, the single one first. -/
def tags : Placement → List ViewpointTag
  | bare _ => []
  | tagged _ pov povs => pov.toList ++ povs

/-- The fields of a tagged placement. -/
structure Fields where
  scene : String := ""
  pov : Option ViewpointTag := none
  povs : List ViewpointTag := []

def record : Json.Record Fields where
  start := {}
  fields := [
    (Json.Field.of "scene_id" Tree.text fun s f => { f with scene := s }).needed,
    Json.Field.of "pov" (Tree.optional ViewpointTag.read) fun v f => { f with pov := v },
    Json.Field.of "povs" (Tree.list ViewpointTag.read) fun v f => { f with povs := v }]

/-- The placement that a written value is exactly. -/
def ofWritten? : Json → Option Placement
  | .string s => some (bare s)
  | .object fields =>
    match record.read (Tree.ofJson (.object fields)) with
    | .ok f => some (tagged f.scene f.pov f.povs)
    | .error _ => none
  | _ => none

/-- Reads a placement. The value is read whole before its form is looked at. -/
def read (t : Tree) : Reading Placement := do
  match ofWritten? (← t.raw) with
  | some p => return p
  | none => .error .shape

/-- Fields that hold nothing are left out. -/
def toJson : Placement → Json
  | bare s => .string s
  | tagged s pov povs =>
    .object ([("scene_id", .string s)] ++ (pov.toList.map fun t => ("pov", t.toJson)) ++
      if povs.isEmpty then [] else [("povs", .array (povs.map ViewpointTag.toJson))])

end Placement

end StoryPress
