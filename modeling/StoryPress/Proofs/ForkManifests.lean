import StoryPress.Proofs.Stamps

/-!
# Manifests of forks

The manifest of a fork tells the labels and the pictures of the fork. The default viewpoint and the missing pictures
that it tells are those of the whole bundle.

* `Json.under?`, `ExportManifest.labelsOf`, `aliasesOf`, `missingOf`: what a reader finds in a manifest;
* `Preparation.Settled.covered`: the scenes of a fork are those that its route plays;
* `Preparation.ForkTold`: what the manifest of one fork tells, and when all of it is of that fork;
* `Preparation.fork_manifests`: what an export leaves for its forks.
-/

namespace StoryPress

/-! ## Reading a manifest -/

/-- What a value holds under keys, one below the other. -/
def Json.under? (v : Json) : List String → Option Json
  | [] => some v
  | key :: keys => (v.field? key).bind (·.under? keys)

/-- The items of the list that a value holds under keys. -/
def Json.itemsUnder (v : Json) (keys : List String) : List Json := ((v.under? keys).bind asArray?).getD []

namespace ExportManifest

/-- The scenes and labels in a manifest. -/
def labelsOf (v : Json) : List (String × Json) := ((v.under? ["script", "labels"]).bind Json.asObject?).getD []

/-- The aliases of the records in a manifest. -/
def aliasesOf (v : Json) : List Json :=
  (v.itemsUnder ["assets", "backgrounds"] ++ v.itemsUnder ["assets", "portraits"]).filterMap (·.field? "alias")

/-- The missing pictures of a kind in a manifest. -/
def missingOf (v : Json) : AssetKind → List Json
  | .background => v.itemsUnder ["missing_assets", "backgrounds"]
  | .portrait => v.itemsUnder ["missing_assets", "portraits"]

variable (m : ExportManifest) (time : String)

theorem default_toJson : (m.toJson time).under? ["pov", "default"] = some (Json.ofText? m.plan.preferred) := rfl

theorem labelsOf_toJson : labelsOf (m.toJson time) = m.scope.labels.entries.map fun (id, l) => (id, .string l) := rfl

theorem aliasesOf_toJson :
    aliasesOf (m.toJson time) = (m.backgrounds ++ m.portraits).map fun u => .string u.alias_ := by
  have hitems : aliasesOf (m.toJson time) =
      (m.backgrounds.map AssetUsage.recordJson ++ m.portraits.map AssetUsage.recordJson).filterMap
        (·.field? "alias") := rfl
  rw [hitems, ← List.map_append, List.filterMap_map, ← List.filterMap_eq_map]
  rfl

end ExportManifest

/-- A scene names a picture, in whatever spelling. -/
def CompiledScene.Names (s : CompiledScene) (kind : AssetKind) (reference : String) : Prop :=
  ∃ node ∈ s.nodes, ∃ written, node.picture? = some (kind, written) ∧ Text.trim written = reference

namespace Preparation

open Layout ExportManifest

variable {fs fs' : FileSystem} {options : ExportOptions} {p : Preparation} {now : Timestamp}

/-! ## Scenes and viewpoints of forks -/

/-- The game of a fork. -/
def forkTree (options : ExportOptions) (p : Preparation) (f : Route × List CompiledScene × RenderedScript) : Tree :=
  ⟨Layout.fork f.1.slug, forkPlan options p.compiled f.1, p.forkManifest f.1 f.2.1 f.2.2⟩

theorem mem_trees_of_fork {f : Route × List CompiledScene × RenderedScript} (hf : f ∈ p.forks) :
    forkTree options p f ∈ p.trees options :=
  List.mem_cons_of_mem _ (List.mem_map_of_mem hf)

theorem Settled.exact (hp : Settled fs options p) : RoutePlan.Exact (p.compiled.placed p.docs) p.compiled.book
    options.routeMode options.switchMenu p.docs.world p.plan := by
  rw [hp.plan_eq]
  exact RoutePlan.exact_ofSequence (fun _ => Compilation.built_of_placed) _ _ _ _

/-- Scenes have ids of their own. -/
theorem Settled.nodup_ids (hp : Settled fs options p) {store : Store} (hfiled : store.Filed)
    (hload : Collected.load fs store options = .ok p.docs) : (p.compiled.scenes.map (·.sceneId)).Nodup := by
  rw [Compilation.ids_of_ofScenes hp.compiled_eq, Collected.ids_of_load hfiled hload]
  exact (Collected.sceneIds_spec p.docs.sequence).1

/-- Each scene that a route plays was compiled. -/
theorem Settled.covered (hp : Settled fs options p) {store : Store} (hfiled : store.Filed)
    (hload : Collected.load fs store options = .ok p.docs) {route : Route} (hr : route ∈ p.plan.routes) {id : String}
    (hid : id ∈ route.sceneIds) : ∃ s ∈ p.compiled.scenes, s.sceneId = id := by
  rw [hp.exact.sceneIds_eq route hr] at hid
  obtain ⟨q, hq, rfl⟩ := List.mem_map.1 hid
  have hplaced := List.mem_of_mem_filter hq
  rw [Compilation.placed_eq] at hplaced
  obtain ⟨placement, hplacement, hplay⟩ := List.mem_filterMap.1 hplaced
  obtain ⟨played, hplayed, -, s, hs, -, hsame, -⟩ :=
    Compilation.exists_play? hfiled hload hp.compiled_eq hplacement
  obtain rfl := Option.some.inj (hplayed.symm.trans hplay)
  exact ⟨s, hs, hsame.symm⟩

/-- Forks are made of all routes, of which there are several. -/
theorem Settled.forks_of_mem (hp : Settled fs options p) (h : p.forks ≠ []) :
    2 ≤ p.plan.routes.length ∧ p.forks = p.plan.routes.map (fork options p.compiled) := by
  have hforks : p.plan.forks = true := by
    apply Classical.byContradiction
    intro hno
    exact h (hp.forks_eq.trans (if_neg hno))
  exact ⟨(hp.exact.forks_iff.1 hforks).1, hp.forks_eq.trans (if_pos hforks)⟩

theorem Settled.viewpoints_nodup (hp : Settled fs options p) : (p.forks.map (·.1.viewpoint)).Nodup := by
  by_cases h : p.forks = []
  · rw [h]
    exact List.nodup_nil
  · rw [(hp.forks_of_mem h).2, List.map_map]
    exact hp.exact.viewpoints_nodup

theorem Settled.exists_preferred (hp : Settled fs options p) (h : p.plan.routes ≠ []) :
    ∃ id, p.plan.preferred = some id :=
  Option.ne_none_iff_exists'.1 (mt hp.exact.preferred_eq_none_iff.1 h)

/-- The preferred viewpoint has a route. -/
theorem Settled.preferred_mem (hp : Settled fs options p) {id : String} (h : p.plan.preferred = some id) :
    id ∈ p.plan.routes.map (·.viewpoint) := by
  by_cases hdefault : ∃ id, p.docs.world.bind (·.defaultViewpoint) = some id ∧ id ∈ p.plan.routes.map (·.viewpoint)
  · obtain ⟨d, hd, hmem⟩ := hdefault
    rw [hp.exact.preferred_of_default d hd hmem] at h
    exact Option.some.inj h ▸ hmem
  · have hno := hp.exact.preferred_of_no_default fun d hd hmem => hdefault ⟨d, hd, hmem⟩
    exact List.mem_of_mem_head? (hno ▸ h)

/-! ## What the manifest of a fork tells -/

/-- What the manifest of a fork tells. Its labels and pictures are those of the fork; its default viewpoint and its
missing pictures are those of the bundle, so they are of the fork under a condition only. -/
structure ForkTold (options : ExportOptions) (p : Preparation) (f : Route × List CompiledScene × RenderedScript)
    (v : Json) : Prop where
  /-- The scenes of a fork are those that its route plays. -/
  mem_scenes_iff : ∀ s, s ∈ f.2.1 ↔ s ∈ p.compiled.scenes ∧ s.sceneId ∈ f.1.sceneIds
  covered : ∀ id ∈ f.1.sceneIds, ∃ s ∈ f.2.1, s.sceneId = id
  labels_nodup : ((labelsOf v).map (·.1)).Nodup
  mem_labels_iff : ∀ id l, (id, l) ∈ labelsOf v ↔ ∃ s ∈ f.2.1, s.sceneId = id ∧ l = .string s.label
  /-- The scripts show the pictures of their scenes, each under its alias or its tag, and declare the aliases. -/
  shown_eq : f.2.2.lines.filterMap ScriptText.shown? =
    ((forkPlan options p.compiled f.1).tokens p.compiled.catalog).map AssetToken.tag
  declared_iff : ∀ name, name ∈ (ScriptText.declarations f.2.2.script).map (·.1) ↔
    .alias_ name ∈ (forkPlan options p.compiled f.1).tokens p.compiled.catalog
  /-- The pictures that are recorded are those that are shown under an alias. -/
  mem_aliases_iff : ∀ x, x ∈ aliasesOf v ↔
    ∃ name, x = .string name ∧ .alias_ name ∈ (forkPlan options p.compiled f.1).tokens p.compiled.catalog
  default_eq : v.under? ["pov", "default"] = some (Json.ofText? p.plan.preferred)
  /-- The default is null or the viewpoint of the fork just where this is the default of the bundle. -/
  default_own_iff : (v.under? ["pov", "default"] = some .null ∨
      v.under? ["pov", "default"] = some (.string f.1.viewpoint)) ↔ p.plan.preferred = some f.1.viewpoint
  missing_eq : ∀ kind, missingOf v kind = (p.compiled.catalog.missing kind).map Json.string
  missing_named : ∀ kind, ∀ reference ∈ p.compiled.catalog.missing kind, ∃ s ∈ p.compiled.scenes,
    s.Names kind reference
  /-- The missing pictures are named in scenes of the fork if those that are named elsewhere are named there too. -/
  missing_own_iff : (∀ kind, ∀ x ∈ missingOf v kind, ∃ reference, x = .string reference ∧
      ∃ s ∈ f.2.1, s.Names kind reference) ↔
    ∀ kind, ∀ reference ∈ p.compiled.catalog.missing kind, ∀ s ∈ p.compiled.scenes, s.sceneId ∉ f.1.sceneIds →
      s.Names kind reference → ∃ s' ∈ f.2.1, s'.Names kind reference

section
variable (hp : Settled fs options p) {f : Route × List CompiledScene × RenderedScript} (hf : f ∈ p.forks)
include hp hf

theorem mem_scenes_of_fork {s : CompiledScene} :
    s ∈ f.2.1 ↔ s ∈ p.compiled.scenes ∧ s.sceneId ∈ f.1.sceneIds := by
  obtain ⟨-, route, -, rfl⟩ := hp.mem_forks hf
  simp [fork, forkPlan]

/-- The labels are those of the scenes, where these have ids of their own. -/
theorem mem_labels_of_fork (hnodup : (p.compiled.scenes.map (·.sceneId)).Nodup) (time : String) {id : String}
    {l : Json} : (id, l) ∈ labelsOf ((forkTree options p f).manifest.toJson time) ↔
      ∃ s ∈ f.2.1, s.sceneId = id ∧ l = .string s.label := by
  have hkeys : ((Compilation.pairs f.2.1).map (·.1)).Nodup := by
    obtain ⟨-, route, -, rfl⟩ := hp.mem_forks hf
    rw [Compilation.pairs, List.map_map]
    exact hnodup.sublist (List.filter_sublist.map _)
  have hlabels : labelsOf ((forkTree options p f).manifest.toJson time) =
      (OrderedMap.ofList (Compilation.pairs f.2.1)).entries.map fun e => (e.1, Json.string e.2) := rfl
  rw [hlabels, List.mem_map]
  constructor
  · rintro ⟨e, he, heq⟩
    obtain ⟨s, hs, rfl⟩ := List.mem_map.1 ((OrderedMap.mem_entries_ofList hkeys).1 he)
    obtain ⟨rfl, rfl⟩ := Prod.mk.inj heq
    exact ⟨s, hs, rfl, rfl⟩
  · rintro ⟨s, hs, rfl, rfl⟩
    exact ⟨_, (OrderedMap.mem_entries_ofList hkeys).2 (List.mem_map_of_mem hs), rfl⟩

/-- The aliases of the records are those that the scenes show. -/
theorem mem_aliases_of_fork (time : String) {x : Json} :
    x ∈ aliasesOf ((forkTree options p f).manifest.toJson time) ↔
      ∃ name, x = .string name ∧ .alias_ name ∈ (forkPlan options p.compiled f.1).tokens p.compiled.catalog := by
  have hrecords {u : AssetUsage} := mem_records_iff hp (mem_trees_of_fork hf) (u := u)
  rw [aliasesOf_toJson, List.mem_map]
  constructor
  · rintro ⟨u, hu, rfl⟩
    exact ⟨u.alias_, rfl, ScriptPlan.mem_aliases_iff.1 (hrecords.1 hu).2⟩
  · rintro ⟨name, rfl, hname⟩
    have halias : name ∈ (forkPlan options p.compiled f.1).aliases p.compiled.catalog p.compiled.labels :=
      ScriptPlan.mem_aliases_iff.2 hname
    obtain ⟨u, hu⟩ := ScriptPlan.byAlias?_of_mem_aliases (Compilation.coherent_ofScenes hp.compiled_eq) halias
    obtain ⟨husages, rfl⟩ := AssetCatalog.byAlias?_eq_some hu
    exact ⟨u, hrecords.2 ⟨husages, halias⟩, rfl⟩

end

/-- What is missing is named by a scene. -/
theorem Settled.missing_named (hp : Settled fs options p) {kind : AssetKind} {reference : String}
    (h : reference ∈ p.compiled.catalog.missing kind) : ∃ s ∈ p.compiled.scenes, s.Names kind reference := by
  obtain ⟨r, hr, hkey, -⟩ := AssetCatalog.mem_missing_iff.1 h
  obtain ⟨rfl, rfl⟩ := Prod.mk.inj hkey
  exact (Compilation.catalogued_ofScenes hp.compiled_eq).named r hr

theorem forkTold (hp : Settled fs options p) {store : Store} (hfiled : store.Filed)
    (hload : Collected.load fs store options = .ok p.docs) {f : Route × List CompiledScene × RenderedScript}
    (hf : f ∈ p.forks) (time : String) : ForkTold options p f ((forkTree options p f).manifest.toJson time) := by
  have hnodup := hp.nodup_ids hfiled hload
  have hself := selfContained (Compilation.coherent_ofScenes hp.compiled_eq)
    (hp.lawful_tree (mem_trees_of_fork hf))
  have hscript : (forkTree options p f).script p = f.2.2 := by
    obtain ⟨-, route, -, rfl⟩ := hp.mem_forks hf
    rfl
  have hdefault := default_toJson (forkTree options p f).manifest time
  have hmissing (kind : AssetKind) : missingOf ((forkTree options p f).manifest.toJson time) kind =
      (p.compiled.catalog.missing kind).map Json.string := by
    cases kind <;> rfl
  constructor
  · exact fun s => mem_scenes_of_fork hp hf
  · intro id hid
    obtain ⟨-, route, hr, heq⟩ := hp.mem_forks hf
    obtain ⟨s, hs, rfl⟩ := hp.covered hfiled hload hr (heq ▸ hid)
    exact ⟨s, (mem_scenes_of_fork hp hf).2 ⟨hs, hid⟩, rfl⟩
  · rw [labelsOf_toJson, List.map_map]
    exact OrderedMap.nodup_keys _
  · exact fun id l => mem_labels_of_fork hp hf hnodup time
  · rw [← hscript]
    exact hself.shown_eq
  · rw [← hscript]
    exact hself.declared_iff
  · exact fun x => mem_aliases_of_fork hp hf time
  · exact hdefault
  · obtain ⟨-, route, hr, rfl⟩ := hp.mem_forks hf
    obtain ⟨d, hd⟩ := hp.exists_preferred (List.ne_nil_of_mem hr)
    have htold : (forkTree options p (fork options p.compiled route)).manifest.plan.preferred = some d := hd
    rw [hdefault, htold, hd]
    simp [Json.ofText?]
  · exact hmissing
  · exact fun kind reference => hp.missing_named
  · simp only [hmissing, List.forall_mem_map]
    constructor
    · intro h kind reference hm _ _ _ _
      obtain ⟨reference', heq, hs⟩ := h kind reference hm
      exact Json.string.inj heq ▸ hs
    · intro h kind reference hm
      refine ⟨reference, rfl, ?_⟩
      obtain ⟨s, hs, hnames⟩ := hp.missing_named hm
      by_cases hid : s.sceneId ∈ f.1.sceneIds
      · exact ⟨s, (mem_scenes_of_fork hp hf).2 ⟨hs, hid⟩, hnames⟩
      · exact h kind reference hm s hs hid hnames

/-- What an export leaves for its forks. -/
structure ForkManifests (fs' : FileSystem) (options : ExportOptions) (p : Preparation) : Prop where
  viewpoints_nodup : (p.forks.map (·.1.viewpoint)).Nodup
  /-- The default of the bundle is the viewpoint of one fork, so other forks tell one that is not theirs. -/
  preferred : p.forks ≠ [] → ∃ f ∈ p.forks, p.plan.preferred = some f.1.viewpoint
  foreign : p.forks ≠ [] → ∃ f ∈ p.forks, p.plan.preferred ≠ some f.1.viewpoint
  told : ∀ f ∈ p.forks, ∃ v, ForkTold options p f v ∧
    fs'.fileAt (fs'.place (options.output.join (ForkDescriptor.ofRoute f.1).manifest)) = some v.pretty.toUTF8

/-- The manifests of the forks tell the labels and the pictures of their forks, beside the default viewpoint and the
missing pictures of the whole bundle. -/
theorem fork_manifests {store : Store} {reviewers : Reviewers BundleView} {r : ExportResult} (hw : fs.WellFormed)
    (hfiled : store.Filed) (hreal : options.dryRun = false)
    (h : Export.run fs store options reviewers now = (.ok r, fs')) : ForkManifests fs' options r.prepared := by
  have hd := delivered_of_run hw hreal h
  have hp := hd.settled
  have hload := loaded_of_run (Export.runs_of_run h).1
  constructor
  · exact hp.viewpoints_nodup
  · intro hne
    obtain ⟨hroutes, hforks⟩ := hp.forks_of_mem hne
    have hroute : r.prepared.plan.routes ≠ [] := List.ne_nil_of_length_pos (by omega)
    obtain ⟨d, hd⟩ := hp.exists_preferred hroute
    obtain ⟨route, hr, rfl⟩ := List.mem_map.1 (hp.preferred_mem hd)
    exact ⟨fork options r.prepared.compiled route, hforks ▸ List.mem_map_of_mem hr, hd⟩
  · intro hne
    obtain ⟨hroutes, hforks⟩ := hp.forks_of_mem hne
    apply Classical.byContradiction
    intro hnone
    have hall : ∀ f ∈ r.prepared.forks, r.prepared.plan.preferred = some f.1.viewpoint :=
      fun f hf => Classical.byContradiction fun hno => hnone ⟨f, hf, hno⟩
    obtain ⟨f, hf⟩ := List.exists_mem_of_ne_nil _ hne
    -- all forks with one viewpoint are one fork
    have hsame : ∀ id ∈ r.prepared.forks.map (·.1.viewpoint), id = f.1.viewpoint := by
      intro id hid
      obtain ⟨g, hg, rfl⟩ := List.mem_map.1 hid
      exact Option.some.inj ((hall g hg).symm.trans (hall f hf))
    have hnodup := hp.viewpoints_nodup
    rw [List.eq_replicate_of_mem hsame, List.nodup_replicate, List.length_map, hforks, List.length_map] at hnodup
    omega
  · intro f hf
    have hstamped : (under (Layout.fork f.1.slug) exportManifest,
        Content.text (settledText fs options now (Layout.fork f.1.slug) (forkTree options r.prepared f).manifest)) ∈
          (forkTree options r.prepared f).stamped r.prepared (settledText fs options now (Layout.fork f.1.slug)
            (forkTree options r.prepared f).manifest) :=
      List.mem_append_right _ List.mem_cons_self
    exact ⟨_, forkTold hp hfiled hload hf _, hd.fileAt_stamped (mem_trees_of_fork hf) hstamped⟩

/-- Two voices, the second of which has a scene before a picture that is not there. -/
def lostShelf : Shelf :=
  ((({} : Shelf).addProject { id := "p", scenes := ["s", "t"] }).addScene { id := "s", povs := [.string "a"] }).addScene
    { id := "t", povs := [.string "b"], background := some "lost" }

/-- A test whether a fork of a viewpoint names no picture. -/
def namesNothing (viewpoint : String) (f : Route × List CompiledScene × RenderedScript) : Bool :=
  f.1.viewpoint == viewpoint && f.2.1.all fun s => s.nodes.all fun node => node.picture?.isNone

theorem not_names_of_namesNothing {viewpoint : String} {f : Route × List CompiledScene × RenderedScript}
    (h : namesNothing viewpoint f = true) : f.1.viewpoint = viewpoint ∧
      ∀ s ∈ f.2.1, ∀ kind reference, ¬s.Names kind reference := by
  simp only [namesNothing, Bool.and_eq_true, beq_iff_eq, List.all_eq_true] at h
  refine ⟨h.1, ?_⟩
  rintro s hs kind reference ⟨node, hnode, written, hpicture, -⟩
  have hnone := h.2 s hs node hnode
  rw [hpicture] at hnone
  cases hnone

set_option maxRecDepth 100000 in
/-- The fork of the second voice has the first for its default, and that of the first a picture missing that none of its
scenes names. -/
theorem fork_manifests_of_lost_picture :
    ({} : FileSystem).WellFormed ∧ (Store.memory lostShelf).Filed ∧ ∃ r fs',
      Export.run {} (.memory lostShelf) openOptions {} default = (.ok r, fs') ∧
      ForkManifests fs' openOptions r.prepared ∧
      (∃ f ∈ r.prepared.forks, f.1.viewpoint = "b" ∧ ∃ v : Json,
        fs'.fileAt (fs'.place (openOptions.output.join (ForkDescriptor.ofRoute f.1).manifest)) = some v.pretty.toUTF8 ∧
        v.under? ["pov", "default"] = some (.string "a")) ∧
      ∃ f ∈ r.prepared.forks, f.1.viewpoint = "a" ∧ ∃ v : Json,
        fs'.fileAt (fs'.place (openOptions.output.join (ForkDescriptor.ofRoute f.1).manifest)) = some v.pretty.toUTF8 ∧
        .string "lost" ∈ missingOf v .background ∧ ∀ s ∈ f.2.1, ¬s.Names .background "lost" := by
  have hw : ({} : FileSystem).WellFormed := by decide +kernel
  have hfiled : (Store.memory lostShelf).Filed := ((Shelf.filed_empty.addProject _).addScene _).addScene _
  have hrun : (match Export.run {} (.memory lostShelf) openOptions {} default with
      | (.ok r, _) => r.prepared.plan.preferred == some "a" &&
          r.prepared.compiled.catalog.missing .background == ["lost"] &&
          (r.prepared.forks.map (·.1.viewpoint)).contains "b" && r.prepared.forks.any (namesNothing "a")
      | (.error _, _) => false) = true := by
    decide +kernel
  split at hrun
  · next r fs' h =>
    simp only [Bool.and_eq_true, beq_iff_eq, List.contains_iff_mem, List.any_eq_true] at hrun
    obtain ⟨⟨⟨hpreferred, hmissing⟩, hsecond⟩, first, hfirst, hnothing⟩ := hrun
    have hforks := fork_manifests hw hfiled rfl h
    refine ⟨hw, hfiled, r, fs', h, hforks, ?_, ?_⟩
    · obtain ⟨second, hsecond, hviewpoint⟩ := List.mem_map.1 hsecond
      obtain ⟨v, htold, hfile⟩ := hforks.told second hsecond
      refine ⟨second, hsecond, hviewpoint, v, hfile, ?_⟩
      rw [htold.default_eq, hpreferred]
      rfl
    · obtain ⟨hviewpoint, hno⟩ := not_names_of_namesNothing hnothing
      obtain ⟨v, htold, hfile⟩ := hforks.told first hfirst
      refine ⟨first, hfirst, hviewpoint, v, hfile, ?_, fun s hs => hno s hs _ _⟩
      rw [htold.missing_eq, hmissing]
      exact List.mem_singleton.2 rfl
  · cases hrun

end Preparation

end StoryPress
