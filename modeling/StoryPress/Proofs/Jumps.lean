import StoryPress.Proofs.Routes

/-!
# Jumps in forks

A fork has fewer labels than the script of the bundle. A target is looked up as the id of a scene first and
as a label second, so the id of a scene that is left out can be taken for the label of another that is kept.

* `resolve?_agrees_iff`: a fork resolves a target as the bundle does unless that happens;
* `JumpTargets.Answers`: what the bundle and a fork resolve a target to;
* `narrowed_lines_iff`: the block of a scene is the one of the bundle without the jumps that leave the fork;
* `callsUnder_start`: `start` of a fork calls what the entry of the route calls;
* `jumps_kept_iff`: all this for every fork of an export.
-/

namespace StoryPress

def SceneNode.targets : SceneNode → List String
  | choice _ options => options.filterMap (·.target)
  | jump target => [target]
  | _ => []

def CompiledScene.targets (s : CompiledScene) : List String := s.nodes.flatMap SceneNode.targets

namespace JumpTargets

/-- The target is the id of a scene that is left out, and the label of another scene. -/
def Shadowed (t : JumpTargets) (target : String) : Prop :=
  Text.trim target ∈ t.available ∧ ∃ l, t.labels.get? (Text.trim target) = some l ∧ l ∉ t.available

/-- The fork has some of the labels of the bundle, which has those of all scenes. -/
structure Narrows (master fork : JumpTargets) : Prop where
  labels_eq : fork.labels = master.labels
  available_sub : ∀ l ∈ fork.available, l ∈ master.available
  known : ∀ id l, master.labels.get? id = some l → l ∈ master.available

variable {master fork : JumpTargets} (h : Narrows master fork) {target : String}
include h

theorem resolve?_of_shadowed (hs : fork.Shadowed target) :
    fork.resolve? target = some (Text.trim target) ∧
      ∃ l, master.resolve? target = some l ∧ l ∉ fork.available := by
  obtain ⟨ha, l, hl, hn⟩ := hs
  have hm : master.labels.get? (Text.trim target) = some l := h.labels_eq ▸ hl
  exact ⟨by simp [resolve?, hl, hn, ha], l, by simp [resolve?, hm, h.known _ _ hm], hn⟩

theorem resolve?_of_not_shadowed (hs : ¬fork.Shadowed target) :
    fork.resolve? target = (master.resolve? target).filter fun l => fork.available.contains l := by
  simp only [resolve?, ← h.labels_eq]
  cases hl : fork.labels.get? (Text.trim target) with
  | none =>
    by_cases ha : Text.trim target ∈ fork.available
    · simp [Option.filter, ha, h.available_sub _ ha]
    · by_cases hm : Text.trim target ∈ master.available <;> simp [Option.filter, ha, hm]
  | some l =>
    have hm : l ∈ master.available := h.known _ _ (h.labels_eq ▸ hl)
    by_cases hf : l ∈ fork.available
    · simp [Option.filter, hf, hm]
    · have ha : Text.trim target ∉ fork.available := fun ha => hs ⟨ha, l, hl, hf⟩
      simp [Option.filter, hf, hm, ha]

/-- What the fork resolves, it resolves as the bundle does, unless the target is shadowed. -/
theorem resolve?_agrees_iff :
    (∀ l, fork.resolve? target = some l → master.resolve? target = some l) ↔ ¬fork.Shadowed target := by
  constructor
  · intro hall hs
    obtain ⟨hf, l, hm, hn⟩ := resolve?_of_shadowed h hs
    have := hall _ hf
    rw [hm] at this
    obtain rfl := Option.some.inj this
    exact hn hs.1
  · intro hs l hf
    rw [resolve?_of_not_shadowed h hs, Option.filter_eq_some_iff] at hf
    exact hf.1

/-- What the bundle and a fork resolve a target to: a shadowed one is a label in the fork, and what leads out of
the fork is dropped. -/
inductive Answers (master fork : JumpTargets) (target : String) : Prop where
  | shadowed {l : String} (hs : fork.Shadowed target) (hm : master.resolve? target = some l)
      (hf : fork.resolve? target = some (Text.trim target)) (hne : l ≠ Text.trim target)
  | missing (hs : ¬fork.Shadowed target) (hm : master.resolve? target = none) (hf : fork.resolve? target = none)
  | kept {l : String} (hs : ¬fork.Shadowed target) (hm : master.resolve? target = some l)
      (hf : fork.resolve? target = some l) (hl : l ∈ fork.available)
  | dropped {l : String} (hs : ¬fork.Shadowed target) (hm : master.resolve? target = some l)
      (hf : fork.resolve? target = none) (hl : l ∉ fork.available)

theorem answers (target : String) : Answers master fork target := by
  by_cases hs : fork.Shadowed target
  · obtain ⟨hf, l, hm, hn⟩ := resolve?_of_shadowed h hs
    exact .shadowed hs hm hf fun he => hn (he ▸ hs.1)
  · have hf := resolve?_of_not_shadowed h hs
    cases hm : master.resolve? target with
    | none => exact .missing hs hm (by simpa [hm] using hf)
    | some l =>
      by_cases hl : l ∈ fork.available
      · exact .kept hs hm (by simpa [Option.filter, hm, hl] using hf) hl
      · exact .dropped hs hm (by simpa [Option.filter, hm, hl] using hf) hl

end JumpTargets

/-- The second list is the first without the jumps to labels that are not kept: a comment and a `pass` stand
for a jump, a `pass` for the jump of an option. -/
inductive Narrowed (master : JumpTargets) (kept : List String) : List Line → List Line → Prop where
  | nil : Narrowed master kept [] []
  | same {line : Line} {ls ks : List Line} (h : ∀ l, line.statement = .jump l → l ∈ kept) :
      Narrowed master kept ls ks → Narrowed master kept (line :: ls) (line :: ks)
  | jump {target l : String} {ls ks : List Line} (hm : master.resolve? target = some l) (hl : l ∉ kept) :
      Narrowed master kept ls ks →
      Narrowed master kept (⟨1, .jump l⟩ :: ls)
        (⟨1, .comment ("unresolved jump: " ++ target)⟩ :: ⟨1, .pass⟩ :: ks)
  | option {l : String} {ls ks : List Line} (hl : l ∉ kept) :
      Narrowed master kept ls ks → Narrowed master kept (⟨3, .jump l⟩ :: ls) (⟨3, .pass⟩ :: ks)

namespace Narrowed

variable {master : JumpTargets} {kept : List String} {ls ks : List Line}

theorem cons_iff {line : Line} (hj : ∀ l, line.statement ≠ .jump l) :
    Narrowed master kept (line :: ls) (line :: ks) ↔ Narrowed master kept ls ks := by
  constructor
  · intro h
    cases h with
    | same _ h => exact h
  · exact same fun l hl => absurd hl (hj l)

theorem append_iff {lines : List Line} (hj : ∀ line ∈ lines, ∀ l, line.statement ≠ .jump l) :
    Narrowed master kept (lines ++ ls) (lines ++ ks) ↔ Narrowed master kept ls ks := by
  induction lines with
  | nil => rfl
  | cons line lines ih =>
    rw [List.cons_append, List.cons_append, cons_iff (hj line (by simp)), ih fun x hx => hj x (by simp [hx])]

theorem cons_jump_iff {depth : Nat} {l : String} :
    Narrowed master kept (⟨depth, .jump l⟩ :: ls) (⟨depth, .jump l⟩ :: ks) ↔
      l ∈ kept ∧ Narrowed master kept ls ks := by
  constructor
  · intro h
    cases h with
    | same hk h => exact ⟨hk l rfl, h⟩
  · rintro ⟨hl, h⟩
    refine same ?_ h
    intro m hm
    obtain rfl := Statement.jump.inj hm
    exact hl

theorem of_comment {depth : Nat} {l text : String}
    (h : Narrowed master kept (⟨depth, .jump l⟩ :: ls) (⟨depth, .comment text⟩ :: ⟨depth, .pass⟩ :: ks)) :
    Narrowed master kept ls ks := by
  cases h with
  | jump _ _ h => exact h

theorem of_pass {depth : Nat} {l : String}
    (h : Narrowed master kept (⟨depth, .jump l⟩ :: ls) (⟨depth, .pass⟩ :: ks)) : Narrowed master kept ls ks := by
  cases h with
  | option _ h => exact h

theorem not_of_ne {depth : Nat} {l m : String} (hne : l ≠ m) :
    ¬Narrowed master kept (⟨depth, .jump l⟩ :: ls) (⟨depth, .jump m⟩ :: ks) := by
  intro h
  cases h
  exact hne rfl

end Narrowed

namespace CompiledScene

variable {master fork : JumpTargets} (h : master.Narrows fork) {ls ks : List Line}
include h

theorem narrowed_jump_iff (catalog : AssetCatalog) (target : String) :
    Narrowed master fork.available (nodeLines catalog master (.jump target) ++ ls)
        (nodeLines catalog fork (.jump target) ++ ks) ↔
      ¬fork.Shadowed target ∧ Narrowed master fork.available ls ks := by
  cases JumpTargets.answers h target with
  | shadowed hs hm hf hne =>
    simp only [nodeLines, hf, hm, List.cons_append, List.nil_append, hs, not_true, false_and, iff_false]
    exact Narrowed.not_of_ne hne
  | missing hs hm hf =>
    simp only [nodeLines, hm, hf, hs, not_false_iff, true_and]
    exact Narrowed.append_iff (by simp)
  | kept hs hm hf hl =>
    simp only [nodeLines, hm, hf, List.cons_append, List.nil_append, Narrowed.cons_jump_iff, hl, hs,
      not_false_iff, true_and]
  | dropped hs hm hf hl =>
    simp only [nodeLines, hm, hf, List.cons_append, List.nil_append, hs, not_false_iff, true_and]
    exact ⟨Narrowed.of_comment, Narrowed.jump hm hl⟩

theorem narrowed_optionLines_iff (o : ChoiceOption) :
    Narrowed master fork.available (optionLines master o ++ ls) (optionLines fork o ++ ks) ↔
      (∀ t ∈ o.target, ¬fork.Shadowed t) ∧ Narrowed master fork.available ls ks := by
  have hcaption (l : String) : (⟨2, .option o.text⟩ : Line).statement ≠ .jump l := by simp
  simp only [optionLines, List.cons_append, List.nil_append, Narrowed.cons_iff hcaption]
  cases ho : o.target with
  | none => simp [Narrowed.cons_iff]
  | some target =>
    simp only [Option.bind_some, Option.mem_some_iff, forall_eq']
    cases JumpTargets.answers h target with
    | shadowed hs hm hf hne =>
      simp only [hf, hm, hs, not_true, false_and, iff_false]
      exact Narrowed.not_of_ne hne
    | missing hs hm hf => simp [hm, hf, hs, Narrowed.cons_iff]
    | kept hs hm hf hl => simp only [hm, hf, Narrowed.cons_jump_iff, hl, hs, not_false_iff, true_and]
    | dropped hs hm hf hl =>
      simp only [hm, hf, hs, not_false_iff, true_and]
      exact ⟨Narrowed.of_pass, Narrowed.option hl⟩

theorem narrowed_options_iff (options : List ChoiceOption) :
    Narrowed master fork.available (options.flatMap (optionLines master) ++ ls)
        (options.flatMap (optionLines fork) ++ ks) ↔
      (∀ t ∈ options.filterMap (·.target), ¬fork.Shadowed t) ∧ Narrowed master fork.available ls ks := by
  induction options with
  | nil => simp
  | cons o options ih =>
    simp only [List.flatMap_cons, List.append_assoc, narrowed_optionLines_iff h, ih, ← and_assoc]
    apply and_congr_left
    intro _
    cases ho : o.target <;> simp [ho]

theorem narrowed_nodeLines_iff (catalog : AssetCatalog) (node : SceneNode) :
    Narrowed master fork.available (nodeLines catalog master node ++ ls) (nodeLines catalog fork node ++ ks) ↔
      (∀ t ∈ node.targets, ¬fork.Shadowed t) ∧ Narrowed master fork.available ls ks := by
  cases node with
  | jump target => simpa [SceneNode.targets] using narrowed_jump_iff h catalog target
  | choice prompt options =>
    have hprompt (depth : Nat) (line : Line) (hl : line ∈ prompt.toList.map fun p => ⟨depth, .say none p⟩)
        (l : String) : line.statement ≠ .jump l := by
      obtain ⟨p, -, rfl⟩ := List.mem_map.1 hl
      simp
    cases options with
    | nil =>
      simp only [nodeLines, SceneNode.targets, List.filterMap_nil, List.not_mem_nil, false_implies,
        implies_true, true_and, List.append_assoc, List.cons_append, List.nil_append]
      rw [Narrowed.append_iff (hprompt 1), Narrowed.cons_iff (by simp)]
    | cons o options =>
      simp only [nodeLines, SceneNode.targets, List.append_assoc, List.cons_append, List.nil_append]
      rw [Narrowed.cons_iff (by simp), Narrowed.append_iff (hprompt 2), narrowed_options_iff h]
  | line | background | portrait | unsupported =>
    simp only [nodeLines, SceneNode.targets, List.not_mem_nil, false_implies, implies_true, true_and]
    exact Narrowed.append_iff (by simp)

/-- The block of a scene in a fork is the one of the bundle without the jumps that leave the fork, unless a
target of the scene is shadowed. -/
theorem narrowed_lines_iff (catalog : AssetCatalog) (s : CompiledScene) :
    Narrowed master fork.available (s.lines catalog master) (s.lines catalog fork) ↔
      ∀ t ∈ s.targets, ¬fork.Shadowed t := by
  have hnodes (nodes : List SceneNode) : ∀ ls ks : List Line,
      Narrowed master fork.available (nodes.flatMap (nodeLines catalog master) ++ ls)
          (nodes.flatMap (nodeLines catalog fork) ++ ks) ↔
        (∀ t ∈ nodes.flatMap SceneNode.targets, ¬fork.Shadowed t) ∧
          Narrowed master fork.available ls ks := by
    induction nodes with
    | nil => simp
    | cons node nodes ih =>
      intro ls ks
      simp only [List.flatMap_cons, List.append_assoc, narrowed_nodeLines_iff h, ih, ← and_assoc,
        List.mem_append, or_imp, forall_and]
  have hend : Narrowed master fork.available [⟨1, .finish⟩] [⟨1, .finish⟩] := .same (by simp) .nil
  simp only [lines, List.cons_append, List.nil_append]
  rw [Narrowed.cons_iff (by simp), hnodes]
  exact and_iff_left hend

end CompiledScene

/-! ## Calls -/

def Statement.call? : Statement → Option String
  | call target => some target
  | _ => none

namespace ScriptPlan

def headed (label : String) (lines : List Line) : Bool :=
  lines.head?.map (·.statement) == some (.label label)

/-- What the sections with a label call, in order. -/
def callsUnder (label : String) (sections : List (List Line)) : List String :=
  (sections.filter (headed label)).flatMap fun lines => lines.filterMap (·.statement.call?)

theorem callsUnder_append (label : String) (a b : List (List Line)) :
    callsUnder label (a ++ b) = callsUnder label a ++ callsUnder label b := by
  simp [callsUnder]

theorem callsUnder_eq_nil {label : String} {sections : List (List Line)}
    (h : ∀ lines ∈ sections, headed label lines = false) : callsUnder label sections = [] := by
  have hf : sections.filter (headed label) = [] := List.filter_eq_nil_iff.2 fun lines hl => by simp [h lines hl]
  simp [callsUnder, hf]

theorem headed_callLines (label name : String) (calls : List String) :
    headed label (callLines name calls) = (name == label) := by
  rw [Bool.eq_iff_iff]
  simp [headed, callLines]

theorem calls_callLines (name : String) (calls : List String) :
    (callLines name calls).filterMap (·.statement.call?) = calls := by
  have hcalls : (calls.map fun c => (⟨1, .call c⟩ : Line)).filterMap (·.statement.call?) = calls := by
    rw [List.filterMap_map]
    exact List.filterMap_some
  rw [callLines, List.filterMap_append, List.filterMap_append, hcalls]
  exact List.append_nil calls

theorem callsUnder_callLines (label : String) (calls : List String) :
    callsUnder label [callLines label calls] = calls := by
  simp [callsUnder, headed_callLines, calls_callLines]

/-- Among entries of their own, an entry calls its labels. -/
theorem callsUnder_entries {routes : List Route} (hd : (routes.map (·.entry)).Nodup) {route : Route}
    (hr : route ∈ routes) :
    callsUnder route.entry (routes.map fun r => callLines r.entry r.labels) = route.labels := by
  induction routes with
  | nil => cases hr
  | cons r routes ih =>
    obtain ⟨hn, hd⟩ := List.nodup_cons.1 hd
    rw [List.map_cons, ← List.singleton_append, callsUnder_append]
    rcases List.mem_cons.1 hr with rfl | hr
    · rw [callsUnder_callLines, callsUnder_eq_nil, List.append_nil]
      intro lines hl
      obtain ⟨r, hm, rfl⟩ := List.mem_map.1 hl
      rw [headed_callLines, beq_eq_false_iff_ne]
      intro he
      exact hn (List.mem_map.2 ⟨r, hm, he⟩)
    · rw [ih hd hr, callsUnder_eq_nil, List.nil_append]
      intro lines hl
      obtain rfl := List.mem_singleton.1 hl
      rw [headed_callLines, beq_eq_false_iff_ne]
      intro he
      exact hn (List.mem_map.2 ⟨route, hr, he.symm⟩)

variable {catalog : AssetCatalog} {labels : OrderedMap String String} {p : ScriptPlan}

/-- Neither the pictures nor the blocks stand under a label that no scene has. -/
theorem callsUnder_sections {label : String} (h : ∀ s ∈ p.scenes, s.label ≠ label) :
    callsUnder label (p.sections catalog labels) = callsUnder label p.entrySections := by
  have hdeclared : callsUnder label
      (if (declarations catalog (p.aliases catalog labels)).isEmpty then []
        else [declarations catalog (p.aliases catalog labels)]) = [] := by
    apply callsUnder_eq_nil
    intro lines hl
    split at hl
    · cases hl
    · obtain rfl := List.mem_singleton.1 hl
      cases hd : (declarations catalog (p.aliases catalog labels)).head? with
      | none => simp [headed, hd]
      | some line =>
        obtain ⟨a, -, ha⟩ := List.mem_filterMap.1 (List.mem_of_mem_head? hd)
        obtain ⟨u, -, rfl⟩ := Option.map_eq_some_iff.1 ha
        simp [headed, hd]
  have hblocks : callsUnder label (if p.perSceneModules then [] else p.blocks catalog labels) = [] := by
    apply callsUnder_eq_nil
    intro lines hl
    split at hl
    · cases hl
    · obtain ⟨s, hs, rfl⟩ := List.mem_map.1 hl
      simp [headed, CompiledScene.lines, h s hs]
  simp only [sections, callsUnder_append, hdeclared, hblocks, List.nil_append, List.append_nil]

theorem callsUnder_start (hm : p.menuRoutes = []) (h : ∀ s ∈ p.scenes, s.label ≠ "start") :
    callsUnder "start" (p.sections catalog labels) = p.startCalls := by
  rw [callsUnder_sections h, entrySections, hm]
  exact callsUnder_callLines _ _

theorem callsUnder_entry {route : Route} (hr : route ∈ p.menuRoutes) (h : ∀ s ∈ p.scenes, s.label ≠ route.entry)
    (hd : (p.menuRoutes.map (·.entry)).Nodup) (hres : route.entry ∉ reservedLabels) :
    callsUnder route.entry (p.sections catalog labels) = route.labels := by
  have hstart : "start" ≠ route.entry := fun he => hres (he ▸ by decide)
  have hmenu : menuLabel ≠ route.entry := fun he => hres (he ▸ by decide)
  have hne : p.menuRoutes.isEmpty = false := by simpa using List.ne_nil_of_mem hr
  rw [callsUnder_sections h, entrySections, hne, if_neg (by simp), callsUnder_append,
    callsUnder_entries hd hr, callsUnder_eq_nil, List.nil_append]
  simp [headed, menuLines, hstart, hmenu]

end ScriptPlan

namespace Preparation

/-- Where the jumps of the bundle can lead. -/
def masterTargets (options : ExportOptions) (p : Preparation) : JumpTargets :=
  (masterPlan options p.compiled (p.compiled.placed p.docs) p.plan).targets p.compiled.labels

/-- Where the jumps of the fork of a route can lead. -/
def forkTargets (options : ExportOptions) (p : Preparation) (route : Route) : JumpTargets :=
  (forkPlan options p.compiled route).targets p.compiled.labels

variable {fs : FileSystem} {options : ExportOptions} {p : Preparation}

theorem Settled.narrows (h : Settled fs options p) (route : Route) :
    (p.masterTargets options).Narrows (p.forkTargets options route) := by
  refine ⟨rfl, ?_, ?_⟩
  · intro l hl
    obtain ⟨s, hs, rfl⟩ := List.mem_map.1 hl
    exact List.mem_map.2 ⟨s, (List.mem_filter.1 hs).1, rfl⟩
  · intro id l hl
    obtain ⟨s, hs, -, rfl⟩ := h.labelled.known id l hl
    exact List.mem_map.2 ⟨s, hs, rfl⟩

/-- The sections of the script of the bundle, and of a fork. -/
def masterSections (options : ExportOptions) (p : Preparation) : List (List Line) :=
  (masterPlan options p.compiled (p.compiled.placed p.docs) p.plan).sections p.compiled.catalog
    p.compiled.labels

def forkSections (options : ExportOptions) (p : Preparation) (route : Route) : List (List Line) :=
  (forkPlan options p.compiled route).sections p.compiled.catalog p.compiled.labels

/-- With a menu, `start` of a fork calls what the entry of its route calls in the bundle. -/
theorem Settled.callsUnder_start (h : Settled fs options p) {route : Route} (hr : route ∈ p.plan.routes)
    (hm : p.plan.menu = true) :
    ScriptPlan.callsUnder "start" (p.forkSections options route) =
        ScriptPlan.callsUnder route.entry (p.masterSections options) ∧
      ScriptPlan.callsUnder "start" (p.forkSections options route) = route.labels := by
  have hfork : ScriptPlan.callsUnder "start" (p.forkSections options route) = route.labels := by
    apply ScriptPlan.callsUnder_start rfl
    intro s hs he
    exact h.labelled.free s (List.mem_filter.1 hs).1 (he ▸ by decide)
  have hroutes : (masterPlan options p.compiled (p.compiled.placed p.docs) p.plan).menuRoutes = p.plan.routes := by
    simp [masterPlan, hm]
  have hmaster : ScriptPlan.callsUnder route.entry (p.masterSections options) = route.labels := by
    have hfree := h.distinct.entry_free route hr
    apply ScriptPlan.callsUnder_entry (hroutes ▸ hr) _ (hroutes ▸ h.distinct.entries_nodup)
    · exact fun hres => hfree (h.labelled.reserved _ hres)
    · intro s hs he
      exact hfree (he ▸ h.labelled.used s hs)
  exact ⟨hfork.trans hmaster.symm, hfork⟩

/-- Every fork leads its jumps where the bundle leads them or nowhere, except for targets that are shadowed:
those it leads elsewhere. The blocks of its scenes differ from those of the bundle in nothing else. -/
theorem jumps_kept_iff {store : Store} {reviewers : Reviewers BundleView}
    (h : run fs store options reviewers = .ok p) {route : Route} {scenes : List CompiledScene}
    {script : RenderedScript} (hf : (route, scenes, script) ∈ p.forks) :
    (p.master = (masterPlan options p.compiled (p.compiled.placed p.docs) p.plan).render p.compiled.catalog
        p.compiled.labels ∧
      script = (forkPlan options p.compiled route).render p.compiled.catalog p.compiled.labels ∧
      scenes = (forkPlan options p.compiled route).scenes) ∧
      (∀ target,
        ((∀ l, (p.forkTargets options route).resolve? target = some l →
            (p.masterTargets options).resolve? target = some l) ↔
          ¬(p.forkTargets options route).Shadowed target) ∧
        (¬(p.forkTargets options route).Shadowed target →
          (p.forkTargets options route).resolve? target =
            ((p.masterTargets options).resolve? target).filter fun l => (scenes.map (·.label)).contains l)) ∧
      (∀ s ∈ scenes, s ∈ p.compiled.scenes ∧
        (Narrowed (p.masterTargets options) (scenes.map (·.label))
            (s.lines p.compiled.catalog (p.masterTargets options))
            (s.lines p.compiled.catalog (p.forkTargets options route)) ↔
          ∀ target ∈ s.targets, ¬(p.forkTargets options route).Shadowed target)) ∧
      (p.plan.menu = true →
        ScriptPlan.callsUnder "start" (p.forkSections options route) =
            ScriptPlan.callsUnder route.entry (p.masterSections options) ∧
          ScriptPlan.callsUnder "start" (p.forkSections options route) = route.labels) := by
  have hs := settled_of_run h
  obtain ⟨-, r, hr, heq⟩ := hs.mem_forks hf
  obtain ⟨rfl, hrest⟩ := Prod.mk.inj heq
  obtain ⟨rfl, rfl⟩ := Prod.mk.inj hrest
  have hn := hs.narrows route
  refine ⟨⟨hs.master_eq, rfl, rfl⟩, fun target => ⟨?_, ?_⟩, fun s hmem => ⟨?_, ?_⟩, hs.callsUnder_start hr⟩
  · exact JumpTargets.resolve?_agrees_iff hn
  · exact JumpTargets.resolve?_of_not_shadowed hn
  · exact (List.mem_filter.1 hmem).1
  · exact CompiledScene.narrowed_lines_iff hn p.compiled.catalog s

/-- Two scenes whose ids make one slug, each with a viewpoint of its own; the first jumps to the second. -/
def collidingIds : Shelf :=
  let jump : Json := .object [("type", .string "jump"), ("target", .string "b")]
  ((({} : Shelf).addProject { id := "p", scenes := ["B", "b"] }).addScene
    { id := "B", pov := some (.string "ann"), nodes := [jump] }).addScene
    { id := "b", pov := some (.string "bob") }

def collidingOptions : ExportOptions := { project := "p", output := ⟨"out"⟩, assets := ⟨"assets"⟩ }

set_option maxRecDepth 100000 in
/-- The fork of the first viewpoint sends a jump to `b` to the scene `B`. -/
theorem jump_redirected_of_colliding_ids :
    ∃ p route scenes script, run {} (.memory collidingIds) collidingOptions {} = .ok p ∧
      (route, scenes, script) ∈ p.forks ∧ (∃ s ∈ scenes, "b" ∈ s.targets) ∧
      (p.forkTargets collidingOptions route).Shadowed "b" := by
  have hrun : (match run {} (.memory collidingIds) collidingOptions {} with
      | .ok p => p.forks.any fun (route, scenes, _) =>
          (scenes.any fun s => s.targets.contains "b") &&
            (p.forkTargets collidingOptions route).resolve? "b" == some "b" &&
            (p.masterTargets collidingOptions).resolve? "b" == some "b_2"
      | .error _ => false) = true := by
    decide +kernel
  split at hrun
  · next p hp =>
    obtain ⟨⟨route, scenes, script⟩, hf, htest⟩ := List.any_eq_true.1 hrun
    simp only [Bool.and_eq_true, beq_iff_eq] at htest
    obtain ⟨⟨hs, hfork⟩, hmaster⟩ := htest
    refine ⟨p, route, scenes, script, hp, hf, by simpa using hs, ?_⟩
    apply Classical.byContradiction
    intro hn
    have := ((jumps_kept_iff hp hf).2.1 "b").1.2 hn "b" hfork
    rw [hmaster] at this
    exact absurd (Option.some.inj this) (by decide)
  · cases hrun

end Preparation

end StoryPress
