import StoryPress.Document.Basic
import StoryPress.Text.Case

/-!
# Scene nodes

The raw entries of a scene are brought to a closed list of nodes. An entry tells its kind in `type`; its
fields are looked up in its content block first, then in the entry itself. An entry of an unknown kind, or
one that lacks what its kind needs, becomes an unsupported node.
-/

namespace StoryPress

/-- One option of a choice. -/
structure ChoiceOption where
  text : String
  target : Option String
deriving DecidableEq, Inhabited

inductive SceneNode where
  | line (speaker : Option String) (text : String)
  | choice (prompt : Option String) (options : List ChoiceOption)
  | jump (target : String)
  | background (reference : String)
  | portrait (reference : String)
  | unsupported (type : String)
deriving DecidableEq, Inhabited

namespace SceneNode

/-- A field of an entry; its content block comes first. -/
def field? (entry : Json) (key : String) : Option Json :=
  (((entry.field? "content").bind fun content => content.field? key)).orElse fun _ => entry.field? key

/-- The first text among the fields that is not blank, trimmed. -/
def textOf (entry : Json) (keys : List String) : Option String :=
  keys.findSome? fun key => ((field? entry key).bind Json.asString?).bind Text.nonBlank?

/-- The first list among the fields. -/
def listOf (entry : Json) (keys : List String) : Option (List Json) :=
  keys.findSome? fun key => (field? entry key).bind Json.asArray?

/-- An option: a text, or an object with a text. -/
def choiceOption? : Json → Option ChoiceOption
  | .string text => some ⟨text, none⟩
  | v@(.object _) =>
    (textOf v ["text", "label", "title"]).map fun text =>
      ⟨text, textOf v ["target", "jump", "next", "goto", "scene_id", "scene"]⟩
  | _ => none

/-- A portrait named as a whole, or by character and expression. -/
def portraitOf (entry : Json) : Option String :=
  (textOf entry ["portrait", "image", "asset", "path"]).orElse fun _ =>
    (textOf entry ["character", "name"]).map fun character =>
      match textOf entry ["expression"] with
      | some expression => character ++ ":" ++ expression
      | none => character

/-- The kind of an entry. One without a kind is a line if it has a text. -/
def typeOf (entry : Json) : String :=
  match textOf entry ["type", "kind"] with
  | some type => Text.lowerAscii type
  | none => if (textOf entry ["text"]).isSome then "line" else "unknown"

def lineTypes : List String := ["line", "dialogue", "text", "narration", "say"]

def choiceTypes : List String := ["choice", "menu"]

def jumpTypes : List String := ["jump", "goto"]

def backgroundTypes : List String := ["background", "scene", "bg"]

def portraitTypes : List String := ["portrait", "show", "character"]

/-- The node of an entry by its kind; a line without a text is none. -/
def main? (entry : Json) : Option SceneNode :=
  let type := typeOf entry
  if lineTypes.contains type then
    (textOf entry ["text", "line"]).map fun text => line (textOf entry ["speaker", "character", "name"]) text
  else if choiceTypes.contains type then
    some (choice (textOf entry ["prompt", "text"])
      (((listOf entry ["options", "choices"]).getD []).filterMap choiceOption?))
  else if jumpTypes.contains type then
    some (((textOf entry ["target", "scene_id", "scene", "label"]).map jump).getD (unsupported type))
  else if backgroundTypes.contains type then
    some (((textOf entry ["background", "image", "asset", "path", "name"]).map background).getD
      (unsupported type))
  else if portraitTypes.contains type then
    some (((portraitOf entry).map portrait).getD (unsupported type))
  else some (unsupported type)

/-- The nodes of an entry. A background or a portrait beside a node of another kind comes before it. -/
def ofEntry : Json → List SceneNode
  | entry@(.object _) =>
    let type := typeOf entry
    let before :=
      if backgroundTypes.contains type then [] else ((textOf entry ["background"]).map background).toList
    let beside :=
      if portraitTypes.contains type then [] else ((textOf entry ["portrait"]).map portrait).toList
    before ++ beside ++ (main? entry).toList
  | .string text => if Text.isBlankText text then [] else [line none text]
  | v => [unsupported v.kindName]

/-- The nodes of a scene: its own background and portrait, its dialogue, its nodes. -/
def ofScene (s : Scene) : List SceneNode :=
  ((s.background.bind Text.nonBlank?).map background).toList ++
    ((s.portrait.bind Text.nonBlank?).map portrait).toList ++
    (s.dialogue ++ s.nodes).flatMap ofEntry

end SceneNode

end StoryPress
