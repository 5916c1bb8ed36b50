import StoryPress.Proofs.Placements
import StoryPress.Proofs.ScriptText

/-!
# Control flow of scripts

What is read from the text of a script and its modules: which labels it defines, and where it jumps and calls.

* `RenderedScript.Closed`: every label is defined once, and nothing leads to a label that is not defined;
* `ScriptPlan.closed_render`: a script is closed if its labels are distinct and its calls are calls of scenes;
* `ScriptPlan.bodyOf_entry`: what stands under `start`, the menu and the entries of routes;
* `Preparation.scripts_closed`: all this for the script of the bundle and those of its forks.
-/

namespace StoryPress

open ScriptText

/-- Every label is defined once, and every jump and every call leads to a label that is defined. -/
structure RenderedScript.Closed (r : RenderedScript) : Prop where
  defined : definedLabels r.lines = r.labels
  once : r.labels.Nodup
  reached : ∀ l ∈ targets r.lines, l ∈ definedLabels r.lines

namespace ScriptPlan

variable {catalog : AssetCatalog} {labels : OrderedMap String String} {p : ScriptPlan}

/-! ## Sections under labels -/

/-- Calls in order, and a return. -/
def calling (calls : List String) : List Line := calls.map (fun c => ⟨1, .call c⟩) ++ [⟨1, .finish⟩]

/-- A menu with an option for each route. -/
def offering (routes : List Route) : List Line :=
  [⟨1, .menu⟩, ⟨2, .say none menuCaption⟩] ++ routes.flatMap fun r => [⟨2, .option r.display⟩, ⟨3, .jump r.entry⟩]

/-- The sections before the scenes, with their labels. -/
def entryBlocks (p : ScriptPlan) : List (String × List Line) :=
  if p.menuRoutes.isEmpty then [("start", calling p.startCalls)]
  else
    [("start", [⟨1, .jump menuLabel⟩]), (menuLabel, offering p.menuRoutes)] ++
      p.menuRoutes.map fun r => (r.entry, calling r.labels)

/-- The scenes, with their labels. -/
def sceneBlocks (catalog : AssetCatalog) (labels : OrderedMap String String) (p : ScriptPlan) :
    List (String × List Line) :=
  p.scenes.map fun s =>
    (s.label, s.nodes.flatMap (CompiledScene.nodeLines catalog (p.targets labels)) ++ [⟨1, .finish⟩])

theorem entrySections_eq (p : ScriptPlan) : p.entrySections = p.entryBlocks.map block := by
  unfold entrySections entryBlocks
  split
  · rfl
  · simp [block, menuLines, callLines, offering, calling]

theorem blocks_eq : p.blocks catalog labels = (p.sceneBlocks catalog labels).map block := by
  simp [blocks, sceneBlocks, block, CompiledScene.lines]

theorem map_entryBlocks (p : ScriptPlan) : p.entryBlocks.map (·.1) = p.entryLabels := by
  unfold entryBlocks entryLabels
  split
  · rfl
  · simp [Function.comp_def]

theorem map_sceneBlocks : (p.sceneBlocks catalog labels).map (·.1) = p.scenes.map (·.label) := by
  simp [sceneBlocks]

theorem asksOfNames_unlabelled : Statement.AsksOfNames fun s => s.label? = none :=
  ⟨rfl, rfl, rfl, fun _ _ => rfl, fun _ => rfl, fun _ => rfl⟩

theorem unlabelled_calling (calls : List String) : Unlabelled (calling calls) := by
  intro l hl
  rcases List.mem_append.1 hl with hl | hl
  · obtain ⟨c, -, rfl⟩ := List.mem_map.1 hl
    rfl
  · obtain rfl := List.mem_singleton.1 hl
    rfl

theorem unlabelled_offering (routes : List Route) : Unlabelled (offering routes) := by
  intro l hl
  rcases List.mem_append.1 hl with hl | hl
  · simp only [List.mem_cons, List.not_mem_nil, or_false] at hl
    rcases hl with rfl | rfl <;> rfl
  · obtain ⟨r, -, hl⟩ := List.mem_flatMap.1 hl
    simp only [List.mem_cons, List.not_mem_nil, or_false] at hl
    rcases hl with rfl | rfl <;> rfl

theorem unlabelled_entryBlocks (p : ScriptPlan) : ∀ b ∈ p.entryBlocks, Unlabelled b.2 := by
  intro b hb
  unfold entryBlocks at hb
  split at hb
  · obtain rfl := List.mem_singleton.1 hb
    exact unlabelled_calling _
  · rcases List.mem_append.1 hb with hb | hb
    · rcases List.mem_cons.1 hb with rfl | hb
      · intro l hl
        obtain rfl := List.mem_singleton.1 hl
        rfl
      · obtain rfl := List.mem_singleton.1 hb
        exact unlabelled_offering _
    · obtain ⟨r, -, rfl⟩ := List.mem_map.1 hb
      exact unlabelled_calling _

theorem unlabelled_sceneBlocks : ∀ b ∈ p.sceneBlocks catalog labels, Unlabelled b.2 := by
  intro b hb l hl
  obtain ⟨s, -, rfl⟩ := List.mem_map.1 hb
  rcases List.mem_append.1 hl with hl | hl
  · obtain ⟨node, -, hl⟩ := List.mem_flatMap.1 hl
    exact CompiledScene.forall_nodeLines asksOfNames_unlabelled (fun _ _ => rfl) (fun _ => rfl) (fun _ => rfl)
      node l hl
  · obtain rfl := List.mem_singleton.1 hl
    rfl

/-- The section that declares pictures, if there is one. -/
def declaring (catalog : AssetCatalog) (labels : OrderedMap String String) (p : ScriptPlan) : List (List Line) :=
  let declared := declarations catalog (p.aliases catalog labels)
  if declared.isEmpty then [] else [declared]

/-- A declaration of a picture names no label. -/
theorem forall_declaring {P : Statement → Prop} (himage : ∀ name path, P (.image name path)) :
    ∀ lines ∈ p.declaring catalog labels, ∀ l ∈ lines, P l.statement := by
  intro lines hlines l hl
  unfold declaring at hlines
  dsimp only at hlines
  split at hlines
  · cases hlines
  · obtain rfl := List.mem_singleton.1 hlines
    obtain ⟨name, -, hl⟩ := List.mem_filterMap.1 hl
    obtain ⟨u, -, rfl⟩ := Option.map_eq_some_iff.1 hl
    exact himage _ _

theorem sections_eq : p.sections catalog labels = p.declaring catalog labels ++
    (p.entryBlocks ++ if p.perSceneModules then [] else p.sceneBlocks catalog labels).map block := by
  rw [List.map_append, ← entrySections_eq]
  unfold sections declaring
  cases p.perSceneModules <;> simp [blocks_eq]

/-! ## What a script and its modules say -/

theorem linesOf_render (r : RenderedScript) (read : String → Option String) :
    r.lines.filterMap read =
      (linesOf r.script).filterMap read ++ (r.modules.map fun m => linesOf m.text).flatMap (·.filterMap read) := by
  rw [RenderedScript.lines, List.flatMap_cons, List.filterMap_append, List.flatMap_map, List.filterMap_flatMap,
    List.flatMap_map]

/-- In either layout, a script and its modules say what the sections before the scenes and the scenes say. -/
theorem Lawful.filterMap_lines (h : p.Lawful catalog) {read : String → Option String}
    {said : Statement → Option String} (hread : ∀ l : Line, read l.text = said l.statement)
    (hempty : read "" = none) (hheader : read "# Generated by talewright. Do not edit by hand." = none)
    (himage : ∀ name path, said (.image name path) = none) :
    (p.render catalog labels).lines.filterMap read =
      (p.entrySections ++ p.blocks catalog labels).flatMap fun lines => lines.filterMap fun l => said l.statement := by
  have hfile (sections : List (List Line)) : (fileLines sections).filterMap read =
      sections.flatMap fun lines => lines.filterMap fun l => said l.statement :=
    filterMap_fileLines hempty hheader fun _ _ l _ => hread l
  have hdeclaring : ((p.declaring catalog labels).flatMap fun lines => lines.filterMap fun l => said l.statement) =
      [] := by
    rw [List.flatMap_eq_nil_iff]
    intro lines hlines
    rw [List.filterMap_eq_nil_iff]
    exact forall_declaring (P := fun s => said s = none) himage lines hlines
  have hscript : (linesOf (p.render catalog labels).script).filterMap read =
      (p.entrySections ++ if p.perSceneModules then [] else p.blocks catalog labels).flatMap fun lines =>
        lines.filterMap fun l => said l.statement := by
    have hsections : p.sections catalog labels = p.declaring catalog labels ++ p.entrySections ++
        if p.perSceneModules then [] else p.blocks catalog labels := rfl
    rw [h.linesOf_script, hfile, hsections, List.append_assoc, List.flatMap_append, hdeclaring, List.nil_append]
  rw [linesOf_render, hscript]
  rw [modules_render]
  by_cases hp : p.perSceneModules = true
  · have hmodule : ∀ s ∈ p.scenes, (linesOf (moduleOf catalog (p.targets labels) s).text).filterMap read =
        (s.lines catalog (p.targets labels)).filterMap fun l => said l.statement := by
      intro s hs
      rw [h.linesOf_module hs, hfile]
      simp
    rw [if_pos hp, if_pos hp, List.append_nil, List.flatMap_append, List.map_map, List.flatMap_map, ScriptPlan.blocks,
      List.flatMap_map]
    exact congrArg _ (List.flatMap_congr hmodule)
  · simp [hp]

/-- A script is closed if its labels are distinct and what it calls are its scenes. -/
theorem closed_render (h : p.Lawful catalog) (hn : (p.entryLabels ++ p.scenes.map (·.label)).Nodup)
    (hcalls : ∀ l ∈ p.calls, l ∈ p.scenes.map (·.label)) : (p.render catalog labels).Closed := by
  have hdefined : definedLabels (p.render catalog labels).lines = p.entryLabels ++ p.scenes.map (·.label) := by
    rw [definedLabels, h.filterMap_lines definedLabel?_text (by decide) (by decide) (fun _ _ => rfl),
      List.flatMap_append, entrySections_eq, blocks_eq, labels_blocks (unlabelled_entryBlocks p),
      labels_blocks unlabelled_sceneBlocks, map_entryBlocks, map_sceneBlocks]
  refine ⟨hdefined, hn, ?_⟩
  rw [hdefined, ScriptText.targets, h.filterMap_lines target?_text (by decide) (by decide) (fun _ _ => rfl)]
  -- a statement before the scenes leads to an entry or to a scene, and one of a scene leads to a scene
  let P (s : Statement) : Prop := ∀ l, s.target? = some l → l ∈ p.entryLabels ++ p.scenes.map (·.label)
  have hP : Statement.AsksOfNames P := ⟨nofun, nofun, nofun, fun _ _ => nofun, fun _ => nofun, fun _ => nofun⟩
  have hto (target : String) (hmem : target ∈ p.entryLabels ++ p.scenes.map (·.label)) :
      P (.jump target) ∧ P (.call target) := by
    constructor <;> (intro l hl; exact Option.some.inj hl ▸ hmem)
  have hsections : ∀ lines ∈ p.entrySections ++ p.blocks catalog labels, ∀ line ∈ lines, P line.statement := by
    intro lines hlines
    rcases List.mem_append.1 hlines with hlines | hlines
    · apply forall_entrySections hP (fun _ _ => nofun) _ _ lines hlines
      · exact fun target ht => (hto target (List.mem_append_left _ ht)).1
      · exact fun target ht => (hto target (List.mem_append_right _ (hcalls target ht))).2
    · obtain ⟨s, hs, rfl⟩ := List.mem_map.1 hlines
      apply CompiledScene.forall_lines hP _ (fun _ => nofun) (fun _ => nofun) nofun
      exact fun target ht => (hto target (List.mem_append_right _ ht)).1
  intro l hl
  obtain ⟨lines, hlines, hl⟩ := List.mem_flatMap.1 hl
  obtain ⟨line, hline, hl⟩ := List.mem_filterMap.1 hl
  exact hsections lines hlines line hline l hl

/-- Under the labels before the scenes stands what the plan puts there. -/
theorem Lawful.bodyOf_entry (h : p.Lawful catalog) (hn : (p.entryLabels ++ p.scenes.map (·.label)).Nodup)
    {name : String} {lines : List Line} (hb : (name, lines) ∈ p.entryBlocks) :
    bodyOf name (linesOf (p.render catalog labels).script) = lines.map Line.text := by
  have hunlabelled : ∀ b ∈ p.entryBlocks ++ if p.perSceneModules then [] else p.sceneBlocks catalog labels,
      Unlabelled b.2 := by
    intro b hb
    rcases List.mem_append.1 hb with hb | hb
    · exact unlabelled_entryBlocks p b hb
    · split at hb
      · cases hb
      · exact unlabelled_sceneBlocks b hb
  have hnodup : ((p.entryBlocks ++ if p.perSceneModules then [] else p.sceneBlocks catalog labels).map
      (·.1)).Nodup := by
    rw [List.map_append, map_entryBlocks]
    split
    · simpa using (List.nodup_append.1 hn).1
    · rwa [map_sceneBlocks]
  have hdeclaring : ∀ lines ∈ p.declaring catalog labels, Unlabelled lines :=
    forall_declaring (P := fun s => s.label? = none) fun _ _ => rfl
  rw [h.linesOf_script, sections_eq]
  exact bodyOf_fileLines hdeclaring hunlabelled hnodup (List.mem_append_left _ hb)

/-- The labels of a script are distinct if those of routes and scenes are, and none is a reserved one. -/
theorem nodup_allLabels (hscenes : (p.scenes.map (·.label)).Nodup)
    (hreserved : ∀ l ∈ reservedLabels, l ∉ p.scenes.map (·.label)) (hentries : (p.menuRoutes.map (·.entry)).Nodup)
    (hentry : ∀ r ∈ p.menuRoutes, r.entry ∉ reservedLabels ∧ r.entry ∉ p.scenes.map (·.label)) :
    (p.entryLabels ++ p.scenes.map (·.label)).Nodup := by
  have hstart : "start" ∈ reservedLabels := by decide
  have hmenu : menuLabel ∈ reservedLabels := by decide
  have hfree {l : String} (hl : l ∈ reservedLabels) : l ∉ p.menuRoutes.map (·.entry) := by
    intro hmem
    obtain ⟨r, hr, rfl⟩ := List.mem_map.1 hmem
    exact (hentry r hr).1 hl
  have hentryLabels : p.entryLabels.Nodup := by
    unfold entryLabels
    split
    · simp
    · refine List.nodup_cons.2 ⟨?_, List.nodup_cons.2 ⟨hfree hmenu, hentries⟩⟩
      rw [List.mem_cons, not_or]
      exact ⟨by decide, hfree hstart⟩
  have hapart : ∀ l ∈ p.entryLabels, l ∉ p.scenes.map (·.label) := by
    intro l hl
    rcases List.mem_cons.1 hl with rfl | hl
    · exact hreserved _ hstart
    · split at hl
      · cases hl
      · rcases List.mem_cons.1 hl with rfl | hl
        · exact hreserved _ hmenu
        · obtain ⟨r, hr, rfl⟩ := List.mem_map.1 hl
          exact (hentry r hr).2
  refine List.nodup_append.2 ⟨hentryLabels, hscenes, ?_⟩
  rintro a ha b hb rfl
  exact hapart a ha hb

/-- The lines of a label that calls others and returns. -/
def callingText (calls : List String) : List String := calls.map ("    call " ++ ·) ++ ["    return"]

/-- The lines of a menu that leads to the entries of routes. -/
def offeringText (routes : List Route) : List String :=
  ["    menu:", "        \"Choose a viewpoint.\""] ++ routes.flatMap fun r =>
    ["        " ++ Quoted.quote r.display ++ ":", "            jump " ++ r.entry]

theorem text_calling (calls : List String) : (calling calls).map Line.text = callingText calls := by
  have hcall (c : String) : Line.text ⟨1, .call c⟩ = "    call " ++ c := by
    simp [Line.text, Statement.text, ← String.append_assoc]
  have hfinish : Line.text ⟨1, .finish⟩ = "    return" := String.toList_injective rfl
  simp [calling, callingText, hcall, hfinish]

theorem text_offering (routes : List Route) : (offering routes).map Line.text = offeringText routes := by
  have hcaption (text : String) : Line.text ⟨2, .option text⟩ = "        " ++ Quoted.quote text ++ ":" := by
    simp [Line.text, Statement.text, ← String.append_assoc]
  have hjump (l : String) : Line.text ⟨3, .jump l⟩ = "            jump " ++ l := by
    simp [Line.text, Statement.text, ← String.append_assoc]
  have hmenu : Line.text ⟨1, .menu⟩ = "    menu:" := String.toList_injective rfl
  have hsay : Line.text ⟨2, .say none menuCaption⟩ = "        \"Choose a viewpoint.\"" :=
    String.toList_injective rfl
  simp [offering, offeringText, hcaption, hjump, hmenu, hsay, List.map_flatMap]

end ScriptPlan

namespace Preparation

variable {fs : FileSystem} {options : ExportOptions} {p : Preparation}

/-! ## The scripts of an export -/

theorem Settled.scene_of_placed (h : Settled fs options p) {q : PlacedScene} (hq : q ∈ p.compiled.placed p.docs) :
    ∃ s ∈ p.compiled.scenes, s.sceneId = q.sceneId ∧ s.label = q.label := by
  rw [Compilation.placed_eq] at hq
  obtain ⟨placement, -, hplay⟩ := List.mem_filterMap.1 hq
  obtain ⟨d, -, hlabel⟩ := Option.bind_eq_some_iff.1 hplay
  obtain ⟨label, hget, rfl⟩ := Option.map_eq_some_iff.1 hlabel
  exact h.labelled.known _ _ hget

/-- A route plays scenes of its own, each under its label. -/
theorem Settled.route_members (h : Settled fs options p) {r : Route} (hr : r ∈ p.plan.routes) :
    (∀ l ∈ r.labels, ∃ s ∈ p.compiled.scenes, s.sceneId ∈ r.sceneIds ∧ s.label = l) ∧ OnLine r.entry := by
  rw [h.plan_eq] at hr
  obtain ⟨hlabels, hids, hentry⟩ := RoutePlan.routesOf_members _ _ _ _ r hr
  refine ⟨fun l hl => ?_, onLine_of_named hentry⟩
  rw [hlabels] at hl
  obtain ⟨q, hq, rfl⟩ := List.mem_map.1 hl
  obtain ⟨s, hs, hid, hlabel⟩ := h.scene_of_placed (List.mem_filter.1 hq).1
  refine ⟨s, hs, ?_, hlabel⟩
  rw [hid, hids]
  exact List.mem_map.2 ⟨q, hq, rfl⟩

theorem Settled.named (h : Settled fs options p) : p.compiled.catalog.Named :=
  (Compilation.registered_ofScenes h.compiled_eq).named

theorem Settled.onLine_label (h : Settled fs options p) {s : CompiledScene} (hs : s ∈ p.compiled.scenes) :
    OnLine s.label :=
  onLine_of_named (h.labelled.named s hs)

/-- What the script of the bundle is made of. -/
def bundlePlan (options : ExportOptions) (p : Preparation) : ScriptPlan :=
  masterPlan options p.compiled (p.compiled.placed p.docs) p.plan

theorem mem_menuRoutes {r : Route} (hr : r ∈ (p.bundlePlan options).menuRoutes) : r ∈ p.plan.routes := by
  simp only [bundlePlan, masterPlan] at hr
  split at hr
  · exact hr
  · cases hr

theorem Settled.calls_master (h : Settled fs options p) :
    ∀ l ∈ (p.bundlePlan options).calls, l ∈ (p.bundlePlan options).scenes.map (·.label) := by
  intro l hl
  rcases List.mem_append.1 hl with hl | hl
  · obtain ⟨q, hq, rfl⟩ := List.mem_map.1 hl
    obtain ⟨s, hs, -, hlabel⟩ := h.scene_of_placed hq
    exact List.mem_map.2 ⟨s, hs, hlabel⟩
  · obtain ⟨r, hr, hl⟩ := List.mem_flatMap.1 hl
    obtain ⟨s, hs, -, hlabel⟩ := (h.route_members (mem_menuRoutes hr)).1 l hl
    exact List.mem_map.2 ⟨s, hs, hlabel⟩

theorem Settled.calls_fork (h : Settled fs options p) {route : Route} (hr : route ∈ p.plan.routes) :
    ∀ l ∈ (forkPlan options p.compiled route).calls,
      l ∈ (forkPlan options p.compiled route).scenes.map (·.label) := by
  intro l hl
  have hl : l ∈ route.labels := by simpa [ScriptPlan.calls, forkPlan] using hl
  obtain ⟨s, hs, hid, rfl⟩ := (h.route_members hr).1 l hl
  exact List.mem_map.2 ⟨s, List.mem_filter.2 ⟨hs, by simpa using hid⟩, rfl⟩

/-- Calls of scenes stay on their lines as the labels of the scenes do. -/
theorem onLine_calls {plan : ScriptPlan} (hscenes : ∀ s ∈ plan.scenes, OnLine s.label)
    (hcalls : ∀ l ∈ plan.calls, l ∈ plan.scenes.map (·.label)) : ∀ l ∈ plan.calls, OnLine l := by
  intro l hl
  obtain ⟨s, hs, rfl⟩ := List.mem_map.1 (hcalls l hl)
  exact hscenes s hs

theorem Settled.lawful_master (h : Settled fs options p) : (p.bundlePlan options).Lawful p.compiled.catalog where
  aliases := h.named
  scenes _ hs := h.onLine_label hs
  entries _ hr := (h.route_members (mem_menuRoutes hr)).2
  calls := onLine_calls (fun _ hs => h.onLine_label hs) h.calls_master

theorem Settled.lawful_fork (h : Settled fs options p) {route : Route} (hr : route ∈ p.plan.routes) :
    (forkPlan options p.compiled route).Lawful p.compiled.catalog where
  aliases := h.named
  scenes _ hs := h.onLine_label (List.mem_filter.1 hs).1
  entries _ hr := nomatch hr
  calls := onLine_calls (fun _ hs => h.onLine_label (List.mem_filter.1 hs).1) (h.calls_fork hr)

theorem Settled.not_reserved (h : Settled fs options p) :
    ∀ l ∈ reservedLabels, l ∉ p.compiled.scenes.map (·.label) := by
  intro l hl hmem
  obtain ⟨s, hs, rfl⟩ := List.mem_map.1 hmem
  exact h.labelled.free s hs hl

theorem Settled.nodup_master (h : Settled fs options p) :
    ((p.bundlePlan options).entryLabels ++ (p.bundlePlan options).scenes.map (·.label)).Nodup := by
  apply ScriptPlan.nodup_allLabels h.labelled.distinct h.not_reserved
  · simp only [bundlePlan, masterPlan]
    split
    · exact h.distinct.entries_nodup
    · exact List.nodup_nil
  · intro r hr
    have hunused := h.distinct.entry_free r (mem_menuRoutes hr)
    refine ⟨fun hres => hunused (h.labelled.reserved _ hres), fun hmem => ?_⟩
    obtain ⟨s, hs, heq⟩ := List.mem_map.1 hmem
    exact hunused (heq ▸ h.labelled.used s hs)

theorem Settled.nodup_fork (h : Settled fs options p) (route : Route) :
    ((forkPlan options p.compiled route).entryLabels ++
      (forkPlan options p.compiled route).scenes.map (·.label)).Nodup := by
  have hsub : ((forkPlan options p.compiled route).scenes.map (·.label)).Sublist
      (p.compiled.scenes.map (·.label)) :=
    List.filter_sublist.map _
  apply ScriptPlan.nodup_allLabels (h.labelled.distinct.sublist hsub)
  · exact fun l hl hmem => h.not_reserved l hl (hsub.subset hmem)
  · exact List.nodup_nil
  · exact nofun

/-- A route plays the placements that carry its viewpoint, in order and under their labels. -/
theorem Settled.labels_route (h : Settled fs options p) {r : Route} (hr : r ∈ p.plan.routes) :
    r.labels = ((p.compiled.placed p.docs).filter (·.carries r.viewpoint)).map (·.label) := by
  rw [h.plan_eq] at hr
  exact (RoutePlan.routesOf_members _ _ _ _ r hr).1

/-- What stands under the labels before the scenes in the script of the bundle. -/
structure Enters (p : Preparation) : Prop where
  /-- Without a menu, `start` calls the placements in order. -/
  start : p.plan.menu = false →
    bodyOf "start" (linesOf p.master.script) =
      ScriptPlan.callingText ((p.compiled.placed p.docs).map (·.label))
  /-- With a menu, `start` leads to it, it offers the entry of each route, and that calls the route. -/
  menu : p.plan.menu = true →
    bodyOf "start" (linesOf p.master.script) = ["    jump route_menu"] ∧
      bodyOf "route_menu" (linesOf p.master.script) = ScriptPlan.offeringText p.plan.routes ∧
      ∀ r ∈ p.plan.routes, bodyOf r.entry (linesOf p.master.script) = ScriptPlan.callingText r.labels

theorem Settled.routes_ne_nil (h : Settled fs options p) (hm : p.plan.menu = true) :
    p.plan.routes.isEmpty = false := by
  have hseveral : 2 ≤ p.plan.routes.length := by
    rw [h.plan_eq] at hm ⊢
    simp only [RoutePlan.ofSequence, Bool.and_eq_true, decide_eq_true_eq] at hm
    exact hm.1.1
  cases hr : p.plan.routes with
  | nil =>
    rw [hr] at hseveral
    exact absurd hseveral (by simp)
  | cons r routes => rfl

theorem Settled.enters (h : Settled fs options p) : p.Enters := by
  have hbody (name : String) (lines : List Line) (hb : (name, lines) ∈ (p.bundlePlan options).entryBlocks) :
      bodyOf name (linesOf p.master.script) = lines.map Line.text := by
    have hmaster : p.master = (p.bundlePlan options).render p.compiled.catalog p.compiled.labels := h.master_eq
    rw [hmaster]
    exact h.lawful_master.bodyOf_entry h.nodup_master hb
  constructor
  · intro hm
    have hstart : ("start", ScriptPlan.calling ((p.compiled.placed p.docs).map (·.label))) ∈
        (p.bundlePlan options).entryBlocks := by
      simp [ScriptPlan.entryBlocks, bundlePlan, masterPlan, hm]
    rw [hbody _ _ hstart, ScriptPlan.text_calling]
  · intro hm
    have hblocks : (p.bundlePlan options).entryBlocks =
        [("start", [⟨1, .jump menuLabel⟩]), (menuLabel, ScriptPlan.offering p.plan.routes)] ++
          p.plan.routes.map fun r => (r.entry, ScriptPlan.calling r.labels) := by
      simp [ScriptPlan.entryBlocks, bundlePlan, masterPlan, hm, h.routes_ne_nil hm]
    have hmenuText : ([⟨1, .jump menuLabel⟩] : List Line).map Line.text = ["    jump route_menu"] := by
      rw [List.map_singleton]
      exact congrArg (fun s => [s]) (String.toList_injective rfl)
    rw [hblocks] at hbody
    refine ⟨?_, ?_, fun r hr => ?_⟩
    · rw [hbody _ _ List.mem_cons_self, hmenuText]
    · rw [← ScriptPlan.text_offering]
      exact hbody menuLabel _ (List.mem_cons_of_mem _ List.mem_cons_self)
    · rw [← ScriptPlan.text_calling]
      exact hbody _ _ (List.mem_append_right _ (List.mem_map.2 ⟨r, hr, rfl⟩))

theorem Settled.start_fork (h : Settled fs options p) {route : Route} (hr : route ∈ p.plan.routes) :
    bodyOf "start"
        (linesOf ((forkPlan options p.compiled route).render p.compiled.catalog p.compiled.labels).script) =
      ScriptPlan.callingText route.labels := by
  have hstart : ("start", ScriptPlan.calling route.labels) ∈ (forkPlan options p.compiled route).entryBlocks :=
    List.mem_singleton.2 rfl
  rw [← ScriptPlan.text_calling]
  exact (h.lawful_fork hr).bodyOf_entry (h.nodup_fork route) hstart

/-- The scripts of an export are closed, that of the bundle and that of each fork, each with its modules. Every
placement is played under the label of its scene: in the bundle by `start`, or by the entries of the menu, and
in a fork by `start`. -/
theorem scripts_closed {store : Store} {reviewers : Reviewers BundleView} (hfiled : store.Filed)
    (h : run fs store options reviewers = .ok p) :
    p.master.Closed ∧ p.Enters ∧
      (∀ route scenes script, (route, scenes, script) ∈ p.forks →
        script.Closed ∧ bodyOf "start" (linesOf script.script) = ScriptPlan.callingText route.labels) ∧
      List.Forall₂ p.compiled.Plays p.docs.sequence (p.compiled.placed p.docs) ∧
      ∀ r ∈ p.plan.routes,
        r.labels = ((p.compiled.placed p.docs).filter (·.carries r.viewpoint)).map (·.label) := by
  have hs := settled_of_run h
  refine ⟨?_, hs.enters, fun route scenes script hf => ?_, ?_, fun r hr => hs.labels_route hr⟩
  · rw [hs.master_eq]
    exact ScriptPlan.closed_render hs.lawful_master hs.nodup_master hs.calls_master
  · obtain ⟨-, r, hr, heq⟩ := hs.mem_forks hf
    obtain ⟨rfl, hrest⟩ := Prod.mk.inj heq
    obtain ⟨-, rfl⟩ := Prod.mk.inj hrest
    exact ⟨ScriptPlan.closed_render (hs.lawful_fork hr) (hs.nodup_fork route) (hs.calls_fork hr), hs.start_fork hr⟩
  · exact Compilation.plays_of_load hfiled (loaded_of_run h) hs.compiled_eq

theorem filed_collidingIds : Store.Filed (.memory collidingIds) :=
  ((Shelf.filed_empty.addProject _).addScene _).addScene _

set_option maxRecDepth 100000 in
/-- Two scenes whose ids make one slug: the menu leads to both, under labels of their own. -/
theorem scripts_closed_of_colliding_ids :
    ∃ p, run {} (.memory collidingIds) collidingOptions {} = .ok p ∧ p.plan.menu = true ∧
      p.master.labels = ["start", "route_menu", "pov_ann", "pov_bob", "b", "b_2"] ∧ p.master.Closed ∧
      bodyOf "start" (linesOf p.master.script) = ["    jump route_menu"] := by
  have hrun : (match run {} (.memory collidingIds) collidingOptions {} with
      | .ok p => p.plan.menu &&
          p.master.labels == ["start", "route_menu", "pov_ann", "pov_bob", "b", "b_2"]
      | .error _ => false) = true := by
    decide +kernel
  split at hrun
  · next p hp =>
    obtain ⟨hm, hlabels⟩ := Bool.and_eq_true_iff.1 hrun
    have hclosed := scripts_closed filed_collidingIds hp
    exact ⟨p, hp, hm, by simpa using hlabels, hclosed.1, (hclosed.2.1.menu hm).1⟩
  · cases hrun

end Preparation

end StoryPress
