import StoryPress.Proofs.Placements
import StoryPress.Proofs.ScriptText

/-!
# Dead ends

What a script gives up is told in warnings. They are found from the scenes and the labels of these; what stands in
the blocks depends on the labels of the script as well. When the labels are those of the scenes in the script, the
warnings tell what is in the blocks.

* `BlockPart`: the lines of a node, or of an option of one, and what they show;
* `CompiledScene.lines_eq_parts`: a block is made of its parts;
* `JumpTargets.isSome_resolve?`: a target resolves if and only if it is the id or the label of a scene;
* `CompiledScene.warnings_eq_findings`: the warnings of a scene are what its parts show;
* `ScriptPlan.warned_as_rendered`: the warnings of all scenes, in order, and the blocks;
* `Preparation.warnings_of_run`: the same for every export.
-/

namespace StoryPress

/-- The lines of a node or of an option of one, and where it is to lead. -/
structure BlockPart where
  target : Option String
  lines : List Line
deriving DecidableEq

namespace BlockPart

/-- The target of a part that leads nowhere: instead of a jump it has a comment on the target and a `pass`, or a
`pass` after the caption of an option. -/
def deadEnd? (part : BlockPart) : Option String :=
  part.target.filter fun target =>
    match part.lines with
    | [⟨1, .comment text⟩, ⟨1, .pass⟩] => text == "unresolved jump: " ++ target
    | [⟨2, .option _⟩, ⟨3, .pass⟩] => true
    | _ => false

/-- The type of a node of which nothing but a comment is left. -/
def unsupported? (part : BlockPart) : Option String :=
  match part.lines with
  | [⟨1, .comment text⟩] => (Text.afterStart? "unsupported node: ".toList text.toList).map String.ofList
  | _ => none

/-- What there is to tell of a part in a scene. -/
def finding? (scene : String) (part : BlockPart) : Option ExportWarning :=
  (part.deadEnd?.map (.unresolvedJump scene)).or (part.unsupported?.map (.unsupportedNode scene))

end BlockPart

namespace ExportWarning

/-- The scene and the target of a jump that leads nowhere. -/
def deadEnd? : ExportWarning → Option (String × String)
  | unresolvedJump scene target => some (scene, target)
  | _ => none

/-- The scene and the type of a node that cannot be rendered. -/
def unsupported? : ExportWarning → Option (String × String)
  | unsupportedNode scene type => some (scene, type)
  | _ => none

end ExportWarning

namespace SceneNode

open CompiledScene (optionLines nodeLines)

variable {catalog : AssetCatalog} {t : JumpTargets}

/-- What a node becomes, part by part: a choice with options has a part before them and one for each, every other
node has one. -/
def parts (catalog : AssetCatalog) (t : JumpTargets) : SceneNode → List BlockPart
  | choice prompt (o :: options) =>
    ⟨none, [⟨1, .menu⟩] ++ prompt.toList.map fun p => ⟨2, .say none p⟩⟩ ::
      (o :: options).map fun o => ⟨o.target, optionLines t o⟩
  | jump target => [⟨some target, nodeLines catalog t (.jump target)⟩]
  | node => [⟨none, nodeLines catalog t node⟩]

theorem flatMap_parts (node : SceneNode) : (node.parts catalog t).flatMap (·.lines) = nodeLines catalog t node := by
  cases node with
  | choice prompt options =>
    cases options with
    | nil => exact List.append_nil _
    | cons o options =>
      rw [parts, List.flatMap_cons, List.flatMap_map]
      rfl
  | line | jump | background | portrait | unsupported => exact List.append_nil _

end SceneNode

/-- The parts of the block of a scene, between its label and its return. -/
def CompiledScene.parts (catalog : AssetCatalog) (t : JumpTargets) (s : CompiledScene) : List BlockPart :=
  s.nodes.flatMap (SceneNode.parts catalog t)

theorem CompiledScene.lines_eq_parts (catalog : AssetCatalog) (t : JumpTargets) (s : CompiledScene) :
    s.lines catalog t =
      [⟨0, .label s.label⟩] ++ (s.parts catalog t).flatMap (·.lines) ++ [⟨1, .finish⟩] := by
  have hparts : s.nodes.flatMap (nodeLines catalog t) = (s.parts catalog t).flatMap (·.lines) := by
    rw [parts, List.flatMap_assoc]
    exact List.flatMap_congr fun node _ => node.flatMap_parts.symm
  rw [CompiledScene.lines, hparts]

/-! ## Targets -/

namespace JumpTargets

variable {t : JumpTargets} {target : String}

/-- The labels of the scenes are the labels that jumps can lead to. -/
def Whole (t : JumpTargets) : Prop := ∀ l, l ∈ t.available ↔ l ∈ t.labels.values

/-- A target resolves if and only if it is the id or the label of a scene. -/
theorem isSome_resolve? (h : t.Whole) : (t.resolve? target).isSome =
    (t.labels.contains (Text.trim target) || t.labels.values.contains (Text.trim target)) := by
  have hliteral : t.available.contains (Text.trim target) = t.labels.values.contains (Text.trim target) := by
    rw [Bool.eq_iff_iff, List.contains_iff_mem, List.contains_iff_mem, h]
  simp only [resolve?, OrderedMap.contains]
  cases hl : t.labels.get? (Text.trim target) with
  | some label =>
    -- the label of an id is available, so the id is never read as a label instead
    have hmem : label ∈ t.available := (h label).2 (List.mem_map.2 ⟨_, OrderedMap.get?_eq_some_iff.1 hl, rfl⟩)
    simp [hmem]
  | none =>
    rw [hliteral]
    cases t.labels.values.contains (Text.trim target) <;> rfl

end JumpTargets

/-! ## Findings -/

namespace BlockPart

open CompiledScene (optionLines nodeLines)

variable {catalog : AssetCatalog} {t : JumpTargets} {scene target : String}

theorem deadEnd?_jump : (BlockPart.mk (some target) (nodeLines catalog t (.jump target))).deadEnd? =
    if (t.resolve? target).isSome then none else some target := by
  cases h : t.resolve? target with
  | none => simp [deadEnd?, nodeLines, h]
  | some label => simp [deadEnd?, nodeLines, h, Option.filter]

theorem deadEnd?_option (o : ChoiceOption) : (BlockPart.mk o.target (optionLines t o)).deadEnd? =
    o.target.filter fun target => !(t.resolve? target).isSome := by
  cases ho : o.target with
  | none => rfl
  | some target => cases h : t.resolve? target <;> simp [deadEnd?, optionLines, ho, h, Option.filter]

/-- A part with a target that is no dead end jumps to the label that the target stands for. -/
theorem jump_of_live {node : SceneNode} {part : BlockPart} (hpart : part ∈ node.parts catalog t)
    (htarget : part.target = some target) (hlive : part.deadEnd? = none) :
    ∃ label, t.resolve? target = some label ∧ ∃ line ∈ part.lines, line.statement = .jump label := by
  cases node with
  | line | background | portrait | unsupported =>
    obtain rfl := List.mem_singleton.1 hpart
    cases htarget
  | jump target =>
    obtain rfl := List.mem_singleton.1 hpart
    obtain rfl := Option.some.inj htarget
    rw [deadEnd?_jump] at hlive
    cases hr : t.resolve? target with
    | none => simp [hr] at hlive
    | some label => exact ⟨label, rfl, ⟨1, .jump label⟩, by simp [nodeLines, hr], rfl⟩
  | choice prompt options =>
    cases options with
    | nil =>
      obtain rfl := List.mem_singleton.1 hpart
      cases htarget
    | cons o options =>
      rcases List.mem_cons.1 hpart with rfl | hpart
      · cases htarget
      · obtain ⟨o, -, rfl⟩ := List.mem_map.1 hpart
        rw [deadEnd?_option] at hlive
        dsimp only at htarget
        cases hr : t.resolve? target with
        | none => simp [htarget, hr, Option.filter] at hlive
        | some label =>
          exact ⟨label, rfl, ⟨3, .jump label⟩, by simp [optionLines, htarget, hr], rfl⟩

theorem finding?_jump : (BlockPart.mk (some target) (nodeLines catalog t (.jump target))).finding? scene =
    if (t.resolve? target).isSome then none else some (.unresolvedJump scene target) := by
  have hshown : (BlockPart.mk (some target) (nodeLines catalog t (.jump target))).unsupported? = none := by
    cases h : t.resolve? target <;> simp [unsupported?, nodeLines, h]
  rw [finding?, hshown, deadEnd?_jump]
  split <;> rfl

theorem finding?_option (o : ChoiceOption) : (BlockPart.mk o.target (optionLines t o)).finding? scene =
    (o.target.filter fun target => !(t.resolve? target).isSome).map (.unresolvedJump scene) := by
  have hshown : (BlockPart.mk o.target (optionLines t o)).unsupported? = none := rfl
  rw [finding?, hshown, deadEnd?_option, Option.map_none, Option.or_none]

theorem finding?_unsupported (type : String) :
    (BlockPart.mk none (nodeLines catalog t (.unsupported type))).finding? scene =
      some (.unsupportedNode scene type) := by
  simp [finding?, deadEnd?, unsupported?, nodeLines, Text.afterStart?]

/-- The parts of options show those targets, in order, that do not resolve. -/
theorem findings_options (options : List ChoiceOption) :
    (options.map fun o => BlockPart.mk o.target (optionLines t o)).filterMap (·.finding? scene) =
      (options.filterMap (·.target)).flatMap fun target =>
        if (t.resolve? target).isSome then [] else [.unresolvedJump scene target] := by
  induction options with
  | nil => rfl
  | cons o options ih =>
    rw [List.map_cons, List.filterMap_cons, finding?_option, ih, List.filterMap_cons]
    cases o.target with
    | none => rfl
    | some target => cases h : (t.resolve? target).isSome <;> simp [Option.filter, h]

end BlockPart

/-- The warnings of a scene tell what its parts show, in order. -/
theorem CompiledScene.warnings_eq_findings (catalog : AssetCatalog) {t : JumpTargets} (h : t.Whole)
    (s : CompiledScene) : s.warnings t.labels = (s.parts catalog t).filterMap (·.finding? s.sceneId) := by
  have hjump (target : String) :
      (if t.labels.contains (Text.trim target) || t.labels.values.contains (Text.trim target) then []
        else [ExportWarning.unresolvedJump s.sceneId target]) =
        if (t.resolve? target).isSome then [] else [.unresolvedJump s.sceneId target] := by
    rw [JumpTargets.isSome_resolve? h]
  -- both sides test a target alike now, so they are compared node by node
  simp only [warnings, hjump]
  rw [parts, List.filterMap_flatMap]
  apply List.flatMap_congr
  intro node _
  cases node with
  | line | background | portrait => rfl
  | unsupported type =>
    have hparts : SceneNode.parts catalog t (.unsupported type) = [⟨none, nodeLines catalog t (.unsupported type)⟩] :=
      rfl
    rw [hparts, List.filterMap_cons_some (BlockPart.finding?_unsupported type), List.filterMap_nil]
  | jump target =>
    rw [SceneNode.parts, List.filterMap_cons, BlockPart.finding?_jump]
    dsimp only
    cases (t.resolve? target).isSome <;> rfl
  | choice prompt options =>
    cases options with
    | nil => cases prompt <;> rfl
    | cons o options =>
      have hhead : (BlockPart.mk none ([⟨1, .menu⟩] ++ prompt.toList.map fun p => ⟨2, .say none p⟩)).finding?
          s.sceneId = none := by
        cases prompt <;> rfl
      rw [SceneNode.parts, List.filterMap_cons_none hhead, BlockPart.findings_options]

/-! ## Scripts -/

namespace BlockPart

variable {part : BlockPart} {scene : String}

/-- A part that leads nowhere is not a comment alone. -/
theorem unsupported?_eq_none {target : String} (h : part.deadEnd? = some target) : part.unsupported? = none := by
  have hshape := (Option.filter_eq_some_iff.1 h).2
  unfold unsupported?
  split at hshape
  · next hlines => simp only [hlines]
  · next hlines => simp only [hlines]
  · cases hshape

theorem deadEnd?_finding? : (part.finding? scene).bind (·.deadEnd?) = part.deadEnd?.map (scene, ·) := by
  unfold finding?
  cases hd : part.deadEnd? with
  | some target => rfl
  | none => cases part.unsupported? <;> rfl

theorem unsupported?_finding? : (part.finding? scene).bind (·.unsupported?) = part.unsupported?.map (scene, ·) := by
  unfold finding?
  cases hd : part.deadEnd? with
  | some target =>
    rw [unsupported?_eq_none hd]
    rfl
  | none => cases part.unsupported? <;> rfl

end BlockPart

namespace ScriptPlan

/-- The labels of the scenes of a plan, by their ids. -/
def ownLabels (p : ScriptPlan) : OrderedMap String String := .ofList (Compilation.pairs p.scenes)

/-- Among distinct ids, the labels of the scenes are all kept. -/
theorem whole_targets {p : ScriptPlan} (h : (p.scenes.map (·.sceneId)).Nodup) : (p.targets p.ownLabels).Whole := by
  have hkeys : ((Compilation.pairs p.scenes).map (·.1)).Nodup := by rwa [Compilation.pairs, List.map_map]
  intro l
  constructor
  · intro hl
    obtain ⟨s, hs, rfl⟩ := List.mem_map.1 hl
    exact List.mem_map.2 ⟨(s.sceneId, s.label),
      (OrderedMap.mem_entries_ofList hkeys).2 (List.mem_map.2 ⟨s, hs, rfl⟩), rfl⟩
  · intro hl
    obtain ⟨pair, hpair, rfl⟩ := List.mem_map.1 hl
    obtain ⟨s, hs, rfl⟩ := List.mem_map.1 (OrderedMap.mem_of_mem_ofList hpair)
    exact List.mem_map.2 ⟨s, hs, rfl⟩

/-- The warnings about the scenes of a script with the given labels tell what its blocks show. -/
structure WarnedAsRendered (catalog : AssetCatalog) (labels : OrderedMap String String) (p : ScriptPlan) : Prop where
  /-- A block is a label, the parts of its nodes in order, and a return. -/
  blocks_eq : p.blocks catalog labels = p.scenes.map fun s =>
    [⟨0, .label s.label⟩] ++ (s.parts catalog (p.targets labels)).flatMap (·.lines) ++ [⟨1, .finish⟩]
  /-- The warnings about jumps are those parts, in order, that lead nowhere. -/
  deadEnds_eq : (p.scenes.flatMap (·.warnings labels)).filterMap (·.deadEnd?) =
    p.scenes.flatMap fun s => (s.parts catalog (p.targets labels)).filterMap fun part =>
      part.deadEnd?.map (s.sceneId, ·)
  /-- The warnings about nodes are those parts, in order, of which a comment is left. -/
  unsupported_eq : (p.scenes.flatMap (·.warnings labels)).filterMap (·.unsupported?) =
    p.scenes.flatMap fun s => (s.parts catalog (p.targets labels)).filterMap fun part =>
      part.unsupported?.map (s.sceneId, ·)
  /-- There are no other warnings, and the two kinds stand in the order of the parts. -/
  warnings_eq : p.scenes.flatMap (·.warnings labels) =
    p.scenes.flatMap fun s => (s.parts catalog (p.targets labels)).filterMap (·.finding? s.sceneId)
  /-- Every other part with a target jumps to a scene of the script. -/
  leads : ∀ s ∈ p.scenes, ∀ part ∈ s.parts catalog (p.targets labels), ∀ target ∈ part.target,
    part.deadEnd? = none → ∃ s' ∈ p.scenes, (p.targets labels).resolve? target = some s'.label ∧
      ∃ line ∈ part.lines, line.statement = .jump s'.label

variable {p : ScriptPlan} {catalog : AssetCatalog} {labels : OrderedMap String String}

theorem warnedAsRendered_of_whole (catalog : AssetCatalog) (h : (p.targets labels).Whole) :
    WarnedAsRendered catalog labels p := by
  have hwarnings : p.scenes.flatMap (·.warnings labels) = p.scenes.flatMap fun s =>
      (s.parts catalog (p.targets labels)).filterMap (·.finding? s.sceneId) :=
    List.flatMap_congr fun s _ => s.warnings_eq_findings catalog h
  refine ⟨?_, ?_, ?_, hwarnings, ?_⟩
  · exact List.map_congr_left fun s _ => s.lines_eq_parts catalog _
  · rw [hwarnings, List.filterMap_flatMap]
    apply List.flatMap_congr
    intro s _
    rw [List.filterMap_filterMap]
    exact List.filterMap_congr fun part _ => part.deadEnd?_finding?
  · rw [hwarnings, List.filterMap_flatMap]
    apply List.flatMap_congr
    intro s _
    rw [List.filterMap_filterMap]
    exact List.filterMap_congr fun part _ => part.unsupported?_finding?
  · intro s _ part hpart target htarget hlive
    obtain ⟨node, -, hpart⟩ := List.mem_flatMap.1 hpart
    obtain ⟨label, hlabel, hline⟩ := BlockPart.jump_of_live hpart htarget hlive
    obtain ⟨s', hs', rfl⟩ := List.mem_map.1 (JumpTargets.mem_of_resolve? hlabel)
    exact ⟨s', hs', hlabel, hline⟩

/-- For scenes with ids of their own, the warnings are what the renderer gives up: jumps that it replaces and nodes
that it leaves out, scene by scene and in order. -/
theorem warned_as_rendered (catalog : AssetCatalog) (h : (p.scenes.map (·.sceneId)).Nodup) :
    WarnedAsRendered catalog p.ownLabels p :=
  warnedAsRendered_of_whole catalog (whole_targets h)

/-- The first scene has the id of the second one as its label. It jumps there with blanks around the target, and
elsewhere; the second scene offers three ways, one of which leads nowhere, and has a node of an unknown type. -/
def crossedLabels : ScriptPlan where
  scenes := [⟨"a", "b", none, [.jump " a ", .jump "cave"]⟩,
    ⟨"b", "c", none, [.choice none [⟨"Back", some "b"⟩, ⟨"Down", some "well"⟩, ⟨"Stay", none⟩], .unsupported "video"]⟩]

theorem warned_of_crossed_labels :
    (crossedLabels.scenes.map (·.sceneId)).Nodup ∧ WarnedAsRendered {} crossedLabels.ownLabels crossedLabels ∧
      crossedLabels.scenes.flatMap (·.warnings crossedLabels.ownLabels) =
        [.unresolvedJump "a" "cave", .unresolvedJump "b" "well", .unsupportedNode "b" "video"] ∧
      (crossedLabels.targets crossedLabels.ownLabels).resolve? " a " = some "b" ∧
      (crossedLabels.targets crossedLabels.ownLabels).resolve? "b" = some "c" :=
  ⟨by decide, warned_as_rendered {} (by decide), by decide, by decide, by decide⟩

end ScriptPlan

/-! ## Exports -/

/-- The labels of a compilation are those of its scenes. -/
theorem Compilation.labels_ofScenes {fs : FileSystem} {index : AssetIndex} {scenes : List Scene} {c : Compilation}
    (h : ofScenes fs index scenes = .ok c) : c.labels = .ofList (pairs c.scenes) := by
  refine invariant_of_ofScenes (P := fun c => c.labels = .ofList (pairs c.scenes)) rfl ?_ ?_ (fun _ _ hc => hc) h
  · intro c s hc
    simp only [addLabel, pairs, List.map_append, List.map_cons, List.map_nil, OrderedMap.ofList, List.foldl_append,
      List.foldl_cons, List.foldl_nil]
    rw [hc]
    rfl
  · intro c c' s node _ _ hc hr
    obtain ⟨-, rfl⟩ | ⟨_, _, _, _, -, -, rfl⟩ := registerNode_eq_ok hr
    · exact hc
    · exact hc

/-- The last warnings of an export are about its scenes, and tell what the blocks of the bundle show. -/
theorem Preparation.warnings_of_run {fs : FileSystem} {store : Store} (hfiled : store.Filed) {options : ExportOptions}
    {reviewers : Reviewers BundleView} {p : Preparation} (h : run fs store options reviewers = .ok p) :
    (masterPlan options p.compiled (p.compiled.placed p.docs) p.plan).WarnedAsRendered p.compiled.catalog
        p.compiled.labels ∧
      ∃ pictures, p.compiled.warnings = pictures ++ p.compiled.scenes.flatMap (·.warnings p.compiled.labels) := by
  have hcompiled := (settled_of_run h).compiled_eq
  have hids : (p.compiled.scenes.map (·.sceneId)).Nodup := by
    rw [Compilation.ids_of_ofScenes hcompiled, Collected.ids_of_load hfiled (loaded_of_run h)]
    exact (Collected.sceneIds_spec p.docs.sequence).1
  constructor
  · apply ScriptPlan.warnedAsRendered_of_whole
    rw [Compilation.labels_ofScenes hcompiled]
    exact ScriptPlan.whole_targets hids
  · obtain ⟨c, -, hc⟩ := bind_eq_ok.1 hcompiled
    rw [← pure_eq_ok.1 hc]
    exact ⟨c.warnings, rfl⟩

end StoryPress
