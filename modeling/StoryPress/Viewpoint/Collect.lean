import StoryPress.Viewpoint.Catalog

/-!
# Viewpoints of scenes and placements

A scene names viewpoints in its own fields, in its metadata, in its nodes and their content blocks, and in
its dialogue entries. Values that hold no tag are passed over.
-/

namespace StoryPress.ViewpointCatalog

/-- Adds the tag in a value, or the tags in a list of values. -/
def addValue (c : ViewpointCatalog) (v : Json) : ViewpointCatalog :=
  let tags := (v.asArray?.getD [v]).filterMap ViewpointTag.find?
  tags.foldl addTag c

/-- Adds the tags in the fields `pov` and `povs` of an object. A bare id takes the name in `pov_name`. -/
def addFields (c : ViewpointCatalog) (v : Json) : ViewpointCatalog :=
  let c :=
    match v.field? "pov", (v.field? "pov_name").bind Json.asString? with
    | some (.string id), some name => c.add id (some name)
    | some pov, _ => c.addValue pov
    | none, _ => c
  match v.field? "povs" with
  | some povs => c.addValue povs
  | none => c

/-- The viewpoints that a scene names. -/
def ofScene (s : Scene) : ViewpointCatalog :=
  let c := s.pov.toList.foldl addValue {}
  let c := s.povs.foldl addValue c
  let c := s.metadata.toList.foldl addFields c
  let c := s.nodes.foldl (fun c node => (node.field? "content").toList.foldl addFields (c.addFields node)) c
  s.dialogue.foldl addFields c

/-- The viewpoints that a placement names itself. -/
def ofPlacement (p : Placement) : ViewpointCatalog := p.tags.foldl addTag {}

end StoryPress.ViewpointCatalog
