import StoryPress.Asset.Resolve
import StoryPress.Json.Value

/-!
# Warnings

Findings that do not stop an export: pictures that are missing or replaced, nodes that cannot be rendered,
and jumps that lead nowhere.
-/

namespace StoryPress

inductive ExportWarning where
  | unresolvedAsset (kind : AssetKind) (scene : String) (reference : String)
  | unsupportedNode (scene : String) (type : String)
  | unresolvedJump (scene : String) (target : String)
  | portraitFallback (reference : String) (requested : String) (substituted : String)
deriving DecidableEq, Inhabited

namespace ExportWarning

def toJson : ExportWarning → Json
  | unresolvedAsset kind scene reference =>
    .object [("kind", .string "unresolved_asset"), ("asset", .string kind.name),
      ("scene_id", .string scene), ("reference", .string reference)]
  | unsupportedNode scene type =>
    .object [("kind", .string "unsupported_node"), ("scene_id", .string scene), ("node_type", .string type)]
  | unresolvedJump scene target =>
    .object [("kind", .string "unresolved_jump"), ("scene_id", .string scene), ("target", .string target)]
  | portraitFallback reference requested substituted =>
    .object [("kind", .string "portrait_fallback"), ("reference", .string reference),
      ("requested", .string requested), ("substituted", .string substituted)]

def message : ExportWarning → String
  | unresolvedAsset kind scene reference =>
    "unresolved " ++ kind.name ++ " '" ++ reference ++ "' in scene '" ++ scene ++ "'"
  | unsupportedNode scene type => "unsupported node type '" ++ type ++ "' in scene '" ++ scene ++ "'"
  | unresolvedJump scene target => "unresolved jump target '" ++ target ++ "' in scene '" ++ scene ++ "'"
  | portraitFallback reference requested substituted =>
    "portrait '" ++ reference ++ "': expression '" ++ requested ++ "' missing, using '" ++ substituted ++ "'"

end ExportWarning

end StoryPress
