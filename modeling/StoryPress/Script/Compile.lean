import StoryPress.Scene.Node
import StoryPress.Script.Statement

/-!
# From nodes to statements

A scene becomes one block: its label, the statements of its nodes, and a return. A jump leads to the label
of a scene or to a label by its own name, if that is among the labels of the script; otherwise a comment and
a `pass` take its place.
-/

namespace StoryPress

/-- A scene with its nodes and its label. -/
structure CompiledScene where
  sceneId : String
  label : String
  title : Option String
  nodes : List SceneNode
deriving DecidableEq, Inhabited

/-- Where jumps can lead: the labels of scenes by id, and the labels that the script defines. -/
structure JumpTargets where
  labels : OrderedMap String String
  available : List String

/-- The label that a target stands for. -/
def JumpTargets.resolve? (t : JumpTargets) (target : String) : Option String :=
  let target := Text.trim target
  let literal := if t.available.contains target then some target else none
  match t.labels.get? target with
  | some label => if t.available.contains label then some label else literal
  | none => literal

namespace CompiledScene

/-- The lines of an option: its caption, then a jump or a `pass`. -/
def optionLines (t : JumpTargets) (o : ChoiceOption) : List Line :=
  [⟨2, .option o.text⟩,
    ⟨3, match o.target.bind t.resolve? with
      | some label => .jump label
      | none => .pass⟩]

/-- The lines of a node. -/
def nodeLines (catalog : AssetCatalog) (t : JumpTargets) : SceneNode → List Line
  | .line speaker text => [⟨1, .say speaker text⟩]
  | .choice prompt [] =>
    (prompt.toList.map fun p => ⟨1, .say none p⟩) ++ [⟨1, .comment "choice without options"⟩]
  | .choice prompt options =>
    [⟨1, .menu⟩] ++ (prompt.toList.map fun p => ⟨2, .say none p⟩) ++ options.flatMap (optionLines t)
  | .jump target =>
    match t.resolve? target with
    | some label => [⟨1, .jump label⟩]
    | none => [⟨1, .comment ("unresolved jump: " ++ target)⟩, ⟨1, .pass⟩]
  | .background reference => [⟨1, .scene (catalog.lookup .background reference)⟩]
  | .portrait reference => [⟨1, .show_ (catalog.lookup .portrait reference)⟩]
  | .unsupported type => [⟨1, .comment ("unsupported node: " ++ type)⟩]

/-- The block of a scene. -/
def lines (catalog : AssetCatalog) (t : JumpTargets) (s : CompiledScene) : List Line :=
  [⟨0, .label s.label⟩] ++ s.nodes.flatMap (nodeLines catalog t) ++ [⟨1, .finish⟩]

/-- Nodes that cannot be rendered, and targets that are neither the id nor the label of a scene. -/
def warnings (labels : OrderedMap String String) (s : CompiledScene) : List ExportWarning :=
  let resolves (target : String) : Bool :=
    let target := Text.trim target
    labels.contains target || labels.values.contains target
  let jump (target : String) : List ExportWarning :=
    if resolves target then [] else [.unresolvedJump s.sceneId target]
  s.nodes.flatMap fun node =>
    match node with
    | .unsupported type => [.unsupportedNode s.sceneId type]
    | .jump target => jump target
    | .choice _ options => (options.filterMap (·.target)).flatMap jump
    | _ => []

end CompiledScene

end StoryPress
