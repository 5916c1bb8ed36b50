import StoryPress.Proofs.BundlePaths
import StoryPress.Proofs.Catalogued
import StoryPress.Proofs.Routes

/-!
# The artifacts of an export

* `mem_files`: what is put into the bundle is a copy of a picture or has a clean path;
* `inBundle_files`, `clean_files`: these paths stay in the bundle, and are clean where their pictures are;
* `nodup_files`: no two of them have the same place;
* `FreeFor`: what is put into the bundle before a manifest has another place.
-/

namespace StoryPress.Preparation

open Layout

variable {fs : FileSystem} {options : ExportOptions} {p : Preparation} {dir : String} {script : RenderedScript}
  {text : String → ExportManifest → String} {a : Artifact}

/-- The paths of all files of the bundle in order. -/
def paths (p : Preparation) : List String := (p.files fun _ _ => "").map (·.1)

theorem paths_files (text : String → ExportManifest → String) : (p.files text).map (·.1) = p.paths := by
  simp only [paths, files, forkFiles, manifestFiles, stamped, List.map_append, List.map_flatMap, List.map_cons,
    List.map_nil]

/-! ## Scripts and modules -/

/-- The modules of a script are those of scenes, which have labels of their own. -/
structure Scripted (script : RenderedScript) : Prop where
  path_eq : ∀ m ∈ script.modules, m.path = sceneModule m.label
  named : ∀ m ∈ script.modules, ∀ c ∈ m.label.toList, Naming.NameChar c
  nodup : (script.modules.map (·.label)).Nodup

theorem scripted_render {c : Compilation} (h : c.Labelled) {plan : ScriptPlan}
    (hs : plan.scenes.Sublist c.scenes) (catalog : AssetCatalog) (labels : OrderedMap String String) :
    Scripted (plan.render catalog labels) := by
  have hmodules : ∀ m ∈ (plan.render catalog labels).modules,
      ∃ s ∈ plan.scenes, m.label = s.label ∧ m.path = sceneModule s.label := by
    intro m hm
    simp only [ScriptPlan.render] at hm
    split at hm
    · obtain ⟨⟨s, lines⟩, hz, rfl⟩ := List.mem_map.1 hm
      exact ⟨s, (List.of_mem_zip hz).1, rfl, rfl⟩
    · cases hm
  constructor
  · intro m hm
    obtain ⟨s, -, hl, hp⟩ := hmodules m hm
    rw [hl, hp]
  · intro m hm
    obtain ⟨s, hmem, hl, -⟩ := hmodules m hm
    rw [hl]
    exact h.named s (hs.subset hmem)
  · have hscenes : (plan.scenes.map (·.label)).Nodup := h.distinct.sublist (hs.map _)
    simp only [ScriptPlan.render]
    split
    · have hlen : plan.scenes.length ≤ (plan.blocks catalog labels).length := by simp [ScriptPlan.blocks]
      rw [List.map_map]
      have : (fun m : ScriptModule => m.label) ∘ (fun x : CompiledScene × List Line =>
          (⟨sceneModule x.1.label, x.1.label, ScriptPlan.fileText [x.2]⟩ : ScriptModule)) =
          (fun s : CompiledScene => s.label) ∘ Prod.fst := rfl
      rw [this, ← List.map_map, List.map_fst_zip hlen]
      exact hscenes
    · exact List.nodup_nil

theorem Settled.scripted_master (h : Settled fs options p) : Scripted p.master := by
  rw [h.master_eq]
  exact scripted_render h.labelled (List.Sublist.refl _) _ _

theorem Settled.scripted_fork (h : Settled fs options p) {f : Route × List CompiledScene × RenderedScript}
    (hf : f ∈ p.forks) : Scripted f.2.2 := by
  obtain ⟨-, route, -, rfl⟩ := h.mem_forks hf
  exact scripted_render h.labelled List.filter_sublist _ _

theorem Settled.plainName_slug (h : Settled fs options p) {f : Route × List CompiledScene × RenderedScript}
    (hf : f ∈ p.forks) : PlainName f.1.slug := by
  obtain ⟨-, route, hroute, rfl⟩ := h.mem_forks hf
  obtain ⟨hne, hchars⟩ := h.distinct.slug_named route hroute
  exact plainName_of_nameChar hne hchars

theorem Settled.slugs_nodup (h : Settled fs options p) : (p.forks.map fun f => f.1.slug).Nodup := by
  rw [h.forks_eq]
  split
  · rw [List.map_map]
    exact h.distinct.slugs_nodup
  · exact List.nodup_nil

/-! ## What the files are -/

theorem mem_images {aliases : List String} {e : String × Path} (h : e ∈ p.images aliases) :
    ∃ u ∈ p.compiled.catalog.usages, e = (u.output, u.source) ∧ u.alias_ ∈ aliases := by
  obtain ⟨u, hu, rfl⟩ := List.mem_map.1 (OrderedMap.mem_of_mem_ofList h)
  obtain ⟨name, hname, hu⟩ := List.mem_filterMap.1 hu
  obtain ⟨husages, rfl⟩ := AssetCatalog.byAlias?_eq_some hu
  exact ⟨u, husages, rfl, hname⟩

/-- A file of a game is the copy of a picture, or a text with a clean path. -/
theorem mem_gameTree (hs : Scripted script) (h : a ∈ p.gameTree dir script) :
    ∃ rel, a.1 = under dir rel ∧ (∃ rest, names rel = gameDir :: rest) ∧
      ((∃ u ∈ p.compiled.catalog.usages, rel = u.output ∧ a.2 = .copyOf u.source) ∨
        Clean rel ∧ ∃ s, a.2 = .text s) := by
  simp only [gameTree, stamped, stamp_under, List.mem_append, List.mem_map, List.mem_cons, List.not_mem_nil,
    or_false] at h
  rcases h with (⟨e, he, rfl⟩ | ⟨m, hm, rfl⟩) | rfl | rfl
  · obtain ⟨u, hu, rfl, -⟩ := mem_images he
    exact ⟨u.output, rfl, ⟨_, names_image u.relative⟩, .inl ⟨u, hu, rfl, rfl⟩⟩
  · refine ⟨m.path, rfl, ?_, .inr ⟨?_, _, rfl⟩⟩ <;> rw [hs.path_eq m hm]
    · exact ⟨_, names_sceneModule (hs.named m hm)⟩
    · exact clean_sceneModule (hs.named m hm)
  · exact ⟨_, rfl, ⟨_, names_script.1⟩, .inr ⟨clean_script.1, _, rfl⟩⟩
  · exact ⟨_, rfl, ⟨_, names_script.2⟩, .inr ⟨clean_script.2, _, rfl⟩⟩

theorem mem_manifestFiles {content : String} (h : a ∈ p.manifestFiles dir content) :
    ∃ rel, a.1 = under dir rel ∧ (rel = exportManifest ∨ rel = stamp exportManifest) ∧ Clean rel ∧
      ∃ s, a.2 = .text s := by
  simp only [manifestFiles, stamped, stamp_under, List.mem_cons, List.not_mem_nil, or_false] at h
  rcases h with rfl | rfl
  · exact ⟨_, rfl, .inl rfl, clean_manifests.1, _, rfl⟩
  · exact ⟨_, rfl, .inr rfl, clean_manifests.2.1, _, rfl⟩

theorem isTree_fork (hp : Settled fs options p) {f : Route × List CompiledScene × RenderedScript}
    (hf : f ∈ p.forks) : IsTree (Layout.fork f.1.slug) :=
  .inr ⟨_, hp.plainName_slug hf, rfl⟩

/-- A file of the bundle is the copy of a picture in a tree, or a text with a clean path. -/
theorem mem_files (hp : Settled fs options p) (h : a ∈ p.files text) :
    (∃ dir, IsTree dir ∧ ∃ u ∈ p.compiled.catalog.usages, a = (under dir u.output, .copyOf u.source)) ∨
      Clean a.1 ∧ ∃ s, a.2 = .text s := by
  have game {dir script} (hd : IsTree dir) (hs : Scripted script) (h : a ∈ p.gameTree dir script) :
      (∃ dir, IsTree dir ∧ ∃ u ∈ p.compiled.catalog.usages, a = (under dir u.output, .copyOf u.source)) ∨
        Clean a.1 ∧ ∃ s, a.2 = .text s := by
    obtain ⟨rel, ha, -, ⟨u, hu, rfl, hc⟩ | ⟨hclean, hc⟩⟩ := mem_gameTree hs h
    · exact .inl ⟨dir, hd, u, hu, Prod.ext ha hc⟩
    · exact .inr ⟨ha ▸ hclean.under hd, hc⟩
  have manifest {dir content} (hd : IsTree dir) (h : a ∈ p.manifestFiles dir content) :
      Clean a.1 ∧ ∃ s, a.2 = .text s := by
    obtain ⟨rel, ha, -, hclean, hc⟩ := mem_manifestFiles h
    exact ⟨ha ▸ hclean.under hd, hc⟩
  simp only [files, forkFiles, List.mem_append, List.mem_flatMap, List.mem_singleton] at h
  rcases h with ((h | ⟨f, hf, h | h⟩) | rfl) | h
  · exact game (.inl rfl) hp.scripted_master h
  · exact game (isTree_fork hp hf) (hp.scripted_fork hf) h
  · exact .inr (manifest (isTree_fork hp hf) h)
  · exact .inr ⟨clean_manifests.2.2, _, rfl⟩
  · exact .inr (manifest (.inl rfl) h)

theorem Settled.origin (hp : Settled fs options p) (hw : fs.WellFormed) {u : AssetUsage}
    (hu : u ∈ p.compiled.catalog.usages) : AssetCatalog.Origin fs options.assets u :=
  (Compilation.catalogued_ofScenes hp.compiled_eq).sound.origin hw hu

/-- A picture has a name below the asset root. -/
theorem names_relative_ne (hp : Settled fs options p) (hw : fs.WellFormed) {u : AssetUsage}
    (hu : u ∈ p.compiled.catalog.usages) : names u.relative ≠ [] := by
  intro hnil
  obtain ⟨hsource, hup, hfound, bytes, hfile, -⟩ := hp.origin hw hu
  by_cases hroot : Path.startsAtRoot u.relative = true
  · rw [Path.join_of_startsAtRoot hroot] at hsource
    have hplace : fs.place u.source = fs.origin u.source := by
      rw [FileSystem.place, hsource]
      exact congrArg (List.foldl FileSystem.enter _) hnil
    have horigin : fs.origin u.source = [] := by
      have habs : u.source.isAbsolute = true := by rw [hsource]; exact hroot
      simp [FileSystem.origin, habs]
    rw [hplace, horigin] at hfile
    simp [FileSystem.fileAt, FileSystem.node?] at hfile
  · have hrel : Path.startsAtRoot u.relative = false := by simpa using hroot
    have hdir := (FileSystem.leads_of_join hrel (hsource ▸ FileSystem.leads_of_locate hfound)).2
    rw [hsource, place_inBundle ⟨hrel, hup⟩, hnil, List.append_nil] at hfile
    rw [FileSystem.fileAt_eq_some_iff.1 hfile] at hdir
    cases hdir

/-- The artifacts of an export stay in the bundle. -/
theorem inBundle_files (hp : Settled fs options p) (hw : fs.WellFormed) (h : a ∈ p.files text) :
    InBundle a.1 := by
  obtain ⟨dir, hd, u, hu, rfl⟩ | ⟨hclean, -⟩ := mem_files hp h
  · exact (inBundle_image (hp.origin hw hu).never_up).under hd
  · exact hclean.inBundle

/-- The pictures in use have clean paths. -/
def CleanPictures (p : Preparation) : Prop := ∀ u ∈ p.compiled.catalog.usages, CleanReference u.relative

theorem clean_relative (hp : Settled fs options p) (hw : fs.WellFormed) (hc : p.CleanPictures) {u : AssetUsage}
    (hu : u ∈ p.compiled.catalog.usages) : Clean u.relative :=
  clean_of_cleanReference (hc u hu) (hp.origin hw hu).never_up

theorem clean_files (hp : Settled fs options p) (hw : fs.WellFormed) (hc : p.CleanPictures)
    (h : a ∈ p.files text) : Clean a.1 := by
  obtain ⟨dir, hd, u, hu, rfl⟩ | ⟨hclean, -⟩ := mem_files hp h
  · exact (clean_image (clean_relative hp hw hc hu)).under hd
  · exact hclean

/-! ## Places of their own -/

theorem moduleName_injective : Function.Injective moduleName := by
  intro a b h
  apply String.toList_injective
  have hlist (l : String) : (moduleName l).toList = l.toList ++ ('.' :: scriptExtension.toList) := by
    simp [moduleName]
  have := congrArg String.toList h
  rw [hlist, hlist] at this
  exact List.append_cancel_right this

/-- The names of the files of a game, below its directory. -/
def gameNames (p : Preparation) (script : RenderedScript) : List (List String) :=
  (p.images script.aliases).map (fun e => names e.1) ++ script.modules.map (fun m => names m.path) ++
    [names Layout.script, names (stamp Layout.script)]

theorem names_gameTree_eq (dir : String) (script : RenderedScript) :
    (p.gameTree dir script).map (fun a => names a.1) = (p.gameNames script).map (names dir ++ ·) := by
  simp only [gameTree, gameNames, stamped, stamp_under, List.map_append, List.map_map, List.map_cons,
    List.map_nil, Function.comp_def, names_under]

theorem names_manifestFiles_eq (dir content : String) :
    (p.manifestFiles dir content).map (fun a => names a.1) =
      [[exportManifest], ["export_manifest.json.provenance.json"]].map (names dir ++ ·) := by
  simp only [manifestFiles, stamped, stamp_under, List.map_cons, List.map_nil, names_under, names_manifests.1,
    names_manifests.2.1]

theorem head?_gameNames (hs : Scripted script) : ∀ ns ∈ p.gameNames script, ns.head? = some gameDir := by
  intro ns hns
  simp only [gameNames, List.mem_append, List.mem_map, List.mem_cons, List.not_mem_nil, or_false] at hns
  rcases hns with (⟨e, he, rfl⟩ | ⟨m, hm, rfl⟩) | rfl | rfl
  · obtain ⟨u, -, rfl, -⟩ := mem_images he
    rw [show names u.output = _ from names_image u.relative]
    rfl
  · rw [hs.path_eq m hm, names_sceneModule (hs.named m hm)]
    rfl
  · rw [names_script.1]
    rfl
  · rw [names_script.2]
    rfl

theorem ne_of_head? {s : String} {l m : List (List String)} (hl : ∀ ns ∈ l, ns.head? = some s)
    (hm : ∀ ns ∈ m, ns.head? ≠ some s) : ∀ a ∈ l, ∀ b ∈ m, a ≠ b := by
  rintro a ha b hb rfl
  exact hm a hb (hl a ha)

theorem nodup_gameNames (hp : Settled fs options p) (hw : fs.WellFormed) (hc : p.CleanPictures)
    (hs : Scripted script) : (p.gameNames script).Nodup := by
  have himages : ((p.images script.aliases).map fun e => names e.1).Nodup := by
    have hkeys : ((p.images script.aliases).map (·.1)).Nodup := OrderedMap.nodup_keys _
    have heq : ((p.images script.aliases).map fun e => names e.1) =
        ((p.images script.aliases).map (·.1)).map names := by
      rw [List.map_map]
      rfl
    rw [heq]
    apply hkeys.map_on
    intro a ha b hb h
    have clean {path : String} (hpath : path ∈ (p.images script.aliases).map (·.1)) : Clean path := by
      obtain ⟨e, he, rfl⟩ := List.mem_map.1 hpath
      obtain ⟨u, hu, rfl, -⟩ := mem_images he
      exact clean_image (clean_relative hp hw hc hu)
    exact (clean ha).injective (clean hb) h
  have hmodules : (script.modules.map fun m => names m.path) =
      (script.modules.map (·.label)).map fun l => [gameDir, scenesDir, moduleName l] := by
    rw [List.map_map]
    apply List.map_congr_left
    intro m hm
    rw [hs.path_eq m hm, names_sceneModule (hs.named m hm)]
    rfl
  have hnodup : (script.modules.map fun m => names m.path).Nodup := by
    rw [hmodules]
    exact hs.nodup.map fun a b h => moduleName_injective (by simpa using h)
  unfold gameNames
  rw [names_script.1, names_script.2, hmodules]
  refine List.nodup_append.2 ⟨List.nodup_append.2 ⟨himages, hmodules ▸ hnodup, ?_⟩, by decide, ?_⟩
  · intro a ha b hb
    obtain ⟨e, he, rfl⟩ := List.mem_map.1 ha
    obtain ⟨l, -, rfl⟩ := List.mem_map.1 hb
    obtain ⟨u, -, rfl, -⟩ := mem_images he
    rw [show names u.output = _ from names_image u.relative]
    simp [imagesDir, scenesDir]
  · intro a ha b hb
    rcases List.mem_append.1 ha with ha | ha
    · obtain ⟨e, he, rfl⟩ := List.mem_map.1 ha
      obtain ⟨u, -, rfl, -⟩ := mem_images he
      rw [show names u.output = _ from names_image u.relative]
      rintro rfl
      simp [imagesDir] at hb
    · obtain ⟨l, -, rfl⟩ := List.mem_map.1 ha
      rintro rfl
      simp at hb

/-- The names of all files of a fork, below its directory. -/
theorem names_forkFiles_eq (f : Route × List CompiledScene × RenderedScript) :
    (p.forkFiles text f).map (fun a => names a.1) =
      (p.gameNames f.2.2 ++ [[exportManifest], ["export_manifest.json.provenance.json"]]).map
        (names (Layout.fork f.1.slug) ++ ·) := by
  simp only [forkFiles, List.map_append, names_gameTree_eq, names_manifestFiles_eq]

/-- No two artifacts have the same place if the pictures have clean paths. -/
theorem nodup_files (hp : Settled fs options p) (hw : fs.WellFormed) (hc : p.CleanPictures)
    (text : String → ExportManifest → String) : ((p.files text).map fun a => names a.1).Nodup := by
  have hmaster := head?_gameNames (p := p) hp.scripted_master
  have hforks : (p.forks.flatMap fun f => (p.forkFiles text f).map fun a => names a.1).Nodup := by
    refine List.nodup_flatMap.2 ⟨?_, ?_⟩
    · intro f hf
      rw [names_forkFiles_eq]
      refine List.Nodup.map (fun a b h => List.append_cancel_left h) ?_
      exact List.nodup_append.2 ⟨nodup_gameNames hp hw hc (hp.scripted_fork hf), by decide,
        ne_of_head? (head?_gameNames (hp.scripted_fork hf)) (by decide)⟩
    · apply (List.pairwise_map.1 hp.slugs_nodup).imp_of_mem
      intro f g hf hg hne
      simp only [Function.onFun, names_forkFiles_eq, names_fork (hp.plainName_slug hf),
        names_fork (hp.plainName_slug hg), List.disjoint_left, List.mem_map]
      rintro _ ⟨a, -, rfl⟩ ⟨b, -, h⟩
      simp only [List.cons_append, List.cons.injEq] at h
      exact hne h.2.1.symm
  have hfork : ∀ ns ∈ p.forks.flatMap (fun f => (p.forkFiles text f).map fun a => names a.1),
      ns.head? = some forksDir := by
    intro ns hns
    obtain ⟨f, hf, hmem⟩ := List.mem_flatMap.1 hns
    rw [names_forkFiles_eq, names_fork (hp.plainName_slug hf)] at hmem
    obtain ⟨rest, -, rfl⟩ := List.mem_map.1 hmem
    rfl
  have hroot : names "" = [] := rfl
  simp only [files, List.map_append, List.map_flatMap, names_gameTree_eq, names_manifestFiles_eq, hroot,
    List.nil_append, List.map_id', List.map_cons, List.map_nil, names_manifests.2.2, List.append_assoc]
  -- the heads tell the master tree, the forks and the manifests apart
  refine List.nodup_append.2 ⟨nodup_gameNames hp hw hc hp.scripted_master, ?_, ne_of_head? hmaster ?_⟩
  · exact List.nodup_append.2 ⟨hforks, by decide, ne_of_head? hfork (by decide)⟩
  · intro ns hns
    rcases List.mem_append.1 hns with hns | hns
    · rw [hfork ns hns]
      decide
    · have hrest : ∀ ns ∈ [[Layout.labelManifest]] ++
          [[exportManifest], ["export_manifest.json.provenance.json"]], ns.head? ≠ some gameDir := by decide
      exact hrest ns hns

/-! ## Manifests -/

/-- The place of a manifest is none of the given artifacts. -/
def FreeFor (dir : String) (as : List Artifact) : Prop := ∀ a ∈ as, names a.1 ≠ names (under dir exportManifest)

theorem freeFor_append {as bs : List Artifact} (ha : FreeFor dir as) (hb : FreeFor dir bs) :
    FreeFor dir (as ++ bs) :=
  fun a h => (List.mem_append.1 h).elim (ha a) (hb a)

theorem append_ne_append {other x y : String} (hd : IsTree dir) (ho : IsTree other) (hxy : x ≠ y)
    (hx : x ≠ forksDir) (hy : y ≠ forksDir) (r r' : List String) :
    names dir ++ x :: r ≠ names other ++ y :: r' := by
  have hroot : names "" = [] := rfl
  obtain rfl | ⟨slug, hs, rfl⟩ := hd <;> obtain rfl | ⟨slug', hs', rfl⟩ := ho
  · simp [hroot, hxy]
  · simp [hroot, names_fork hs', hx]
  · simp [hroot, names_fork hs, Ne.symm hy]
  · simp [names_fork hs, names_fork hs', hxy]

theorem freeFor_gameTree {other : String} (hd : IsTree dir) (ho : IsTree other) (hs : Scripted script) :
    FreeFor dir (p.gameTree other script) := by
  intro a ha
  obtain ⟨rel, hrel, ⟨rest, hnames⟩, -⟩ := mem_gameTree hs ha
  rw [hrel, names_under, hnames, names_under, names_manifests.1]
  exact append_ne_append ho hd (by decide) (by decide) (by decide) _ _

theorem freeFor_manifestFiles {other content : String} (hd : IsTree dir) (ho : IsTree other)
    (hne : names other ≠ names dir) : FreeFor dir (p.manifestFiles other content) := by
  intro a ha
  obtain ⟨rel, hrel, rfl | rfl, -⟩ := mem_manifestFiles ha
  · rw [hrel, names_under, names_under]
    exact fun he => hne (List.append_cancel_right he)
  · rw [hrel, names_under, names_manifests.2.1, names_under, names_manifests.1]
    exact append_ne_append ho hd (by decide) (by decide) (by decide) _ _

theorem freeFor_labelManifest (hd : IsTree dir) (c : Content) : FreeFor dir [(Layout.labelManifest, c)] := by
  intro a ha
  obtain rfl := List.mem_singleton.1 ha
  rw [names_manifests.2.2, names_under, names_manifests.1]
  have hroot : IsTree "" := .inl rfl
  exact append_ne_append hroot hd (by decide) (by decide) (by decide) [] []

theorem freeFor_forkFiles (hp : Settled fs options p) (hd : IsTree dir)
    {forks : List (Route × List CompiledScene × RenderedScript)} (hsub : ∀ f ∈ forks, f ∈ p.forks)
    (hne : ∀ f ∈ forks, names (Layout.fork f.1.slug) ≠ names dir) :
    FreeFor dir (forks.flatMap (p.forkFiles text)) := by
  intro a ha
  obtain ⟨f, hf, ha⟩ := List.mem_flatMap.1 ha
  have hmem := hsub f hf
  exact freeFor_append (freeFor_gameTree hd (isTree_fork hp hmem) (hp.scripted_fork hmem))
    (freeFor_manifestFiles hd (isTree_fork hp hmem) (hne f hf)) a ha

end StoryPress.Preparation
