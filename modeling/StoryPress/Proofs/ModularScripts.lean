import StoryPress.Proofs.ControlFlow

/-!
# Scripts with modules

A script is rendered as one file, or with the block of each scene in a module of its own. Both ways the same labels
and the same pictures are there, and the one file is the main file of the other way with the blocks after it.

* `Text.joinWith_append_join`: joined texts go on where the first of them end;
* `ScriptPlan.sections_cut_true`, `ScriptPlan.sections_cut_false`: the sections of the main file, and those of the one
  file, which has the blocks after them;
* `ScriptPlan.split_into_modules`: how the two renderings of a plan compare.
-/

namespace StoryPress

namespace Text

theorem joinWith_cons_join (sep part : String) (parts : List String) :
    joinWith sep (part :: parts) = part ++ String.join (parts.map fun next => sep ++ next) := by
  induction parts generalizing part with
  | nil => simp [joinWith]
  | cons next parts ih =>
    rw [joinWith, String.intercalate_cons_of_ne_nil (List.cons_ne_nil _ _), ← joinWith, ih, List.map_cons,
      String.join_cons, String.append_assoc, String.append_assoc]

/-- What is joined to texts stands after them, each part with a separator before it. -/
theorem joinWith_append_join {sep : String} {front : List String} (hfront : front ≠ []) (back : List String) :
    joinWith sep (front ++ back) = joinWith sep front ++ String.join (back.map fun next => sep ++ next) := by
  obtain ⟨part, parts, rfl⟩ := List.exists_cons_of_ne_nil hfront
  rw [List.cons_append, joinWith_cons_join, joinWith_cons_join, List.map_append, String.join_append, String.append_assoc]

end Text

/-- How a script in one file compares with the same script with a module for each scene, whose block has the given
text. -/
structure RenderedScript.SplitInto (single modular : RenderedScript) (scenes : List CompiledScene)
    (block : CompiledScene → String) : Prop where
  labels_eq : single.labels = modular.labels
  aliases_eq : single.aliases = modular.aliases
  /-- One file has no modules; otherwise there is one for each scene, in order, at the path of its label. -/
  modules_single : single.modules = []
  modules_modular : modular.modules = scenes.map fun s =>
    ⟨Layout.sceneModule s.label, s.label, ScriptPlan.header ++ "\n" ++ block s⟩
  /-- The one file is the main file, and each block after an empty line. -/
  script_eq : single.script = modular.script ++ String.join (scenes.map fun s => "\n" ++ block s)

namespace ScriptPlan

/-- The plan with or without a module for each scene. -/
def cut (p : ScriptPlan) (perScene : Bool) : ScriptPlan := { p with perSceneModules := perScene }

variable {catalog : AssetCatalog} {labels : OrderedMap String String} {p : ScriptPlan}

theorem sections_cut_true :
    (p.cut true).sections catalog labels = p.declaring catalog labels ++ p.entrySections := List.append_nil _

theorem sections_cut_false : (p.cut false).sections catalog labels =
    p.declaring catalog labels ++ p.entrySections ++ p.blocks catalog labels := rfl

/-- A file goes on with further sections, each after an empty line. -/
theorem fileText_append {front : List (List Line)} (hfront : front ≠ []) (back : List (List Line)) :
    fileText (front ++ back) = fileText front ++ String.join (back.map fun lines => "\n" ++ printLines lines) := by
  have hne : front.map printLines ≠ [] := mt List.map_eq_nil_iff.1 hfront
  rw [fileText, fileText, List.map_append, Text.joinWith_append_join hne, List.map_map, ← String.append_assoc]
  rfl

theorem fileText_singleton (lines : List Line) : fileText [lines] = header ++ "\n" ++ printLines lines := by
  rw [fileText, List.map_singleton, Text.joinWith, String.intercalate_singleton]

/-- A module for each scene changes neither the labels nor the pictures of a script, and its texts only in where the
blocks stand. -/
theorem split_into_modules (catalog : AssetCatalog) (labels : OrderedMap String String) (p : ScriptPlan) :
    ((p.cut false).render catalog labels).SplitInto ((p.cut true).render catalog labels) p.scenes fun s =>
      printLines (s.lines catalog (p.targets labels)) := by
  refine ⟨rfl, rfl, rfl, ?_, ?_⟩
  · rw [modules_render]
    exact List.map_congr_left fun s _ => congrArg (ScriptModule.mk _ _) (fileText_singleton _)
  · calc ((p.cut false).render catalog labels).script
        = fileText ((p.cut true).sections catalog labels ++ p.blocks catalog labels) := by
          rw [sections_cut_true, ← sections_cut_false]
          rfl
      _ = fileText ((p.cut true).sections catalog labels) ++
            String.join ((p.blocks catalog labels).map fun lines => "\n" ++ printLines lines) :=
          fileText_append sections_ne_nil _
      _ = _ := by
          rw [blocks, List.map_map]
          rfl

end ScriptPlan

end StoryPress
