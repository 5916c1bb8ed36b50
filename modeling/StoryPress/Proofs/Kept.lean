import StoryPress.Proofs.Delivered

/-!
# What the games of a bundle declare and record

* `image_declared`: the path of an `image` statement is that of a copied picture;
* `image_copied`, `record_copied`: and so is the path in a record of a manifest;
* `artifacts_kept_iff`: an export keeps exactly the artifacts that a walk meets under a path that was produced
  and that no other replaces; with clean paths of pictures, all of them.
-/

namespace StoryPress

namespace ScriptPlan

open Layout

/-- The lines declare no picture. -/
def NoImage (lines : List Line) : Prop := ∀ l ∈ lines, ∀ name path, l.statement ≠ .image name path

theorem noImage_append {a b : List Line} (ha : NoImage a) (hb : NoImage b) : NoImage (a ++ b) :=
  fun l hl => (List.mem_append.1 hl).elim (ha l) (hb l)

theorem noImage_flatMap {α : Type} {xs : List α} {f : α → List Line} (h : ∀ x ∈ xs, NoImage (f x)) :
    NoImage (xs.flatMap f) := by
  intro l hl
  obtain ⟨x, hx, hl⟩ := List.mem_flatMap.1 hl
  exact h x hx l hl

theorem noImage_callLines (label : String) (calls : List String) : NoImage (callLines label calls) := by
  simp [NoImage, callLines, or_imp, forall_and]

theorem noImage_menuLines (routes : List Route) : NoImage (menuLines routes) := by
  refine noImage_append (by simp [NoImage]) (noImage_flatMap ?_)
  intro r _
  simp [NoImage]

theorem noImage_entrySections (plan : ScriptPlan) : ∀ lines ∈ plan.entrySections, NoImage lines := by
  intro lines hlines
  unfold entrySections at hlines
  split at hlines
  · obtain rfl := List.mem_singleton.1 hlines
    exact noImage_callLines _ _
  · simp only [List.mem_append, List.mem_cons, List.not_mem_nil, or_false, List.mem_map] at hlines
    rcases hlines with (rfl | rfl) | ⟨r, -, rfl⟩
    · simp [NoImage]
    · exact noImage_menuLines _
    · exact noImage_callLines _ _

theorem noImage_nodeLines (catalog : AssetCatalog) (t : JumpTargets) (node : SceneNode) :
    NoImage (CompiledScene.nodeLines catalog t node) := by
  unfold CompiledScene.nodeLines
  split
  · simp [NoImage]
  · simp [NoImage, or_imp, forall_and]
  · refine noImage_append (by simp [NoImage, or_imp, forall_and]) (noImage_flatMap ?_)
    intro o _
    cases h : o.target.bind t.resolve? <;> simp [NoImage, CompiledScene.optionLines, h]
  · split <;> simp [NoImage]
  all_goals simp [NoImage]

theorem noImage_blocks (catalog : AssetCatalog) (labels : OrderedMap String String) (plan : ScriptPlan) :
    ∀ lines ∈ plan.blocks catalog labels, NoImage lines := by
  intro lines hlines
  obtain ⟨s, -, rfl⟩ := List.mem_map.1 hlines
  refine noImage_append (noImage_append (by simp [NoImage]) ?_) (by simp [NoImage])
  exact noImage_flatMap fun node _ => noImage_nodeLines _ _ node

/-- The lines of a script and of its modules. -/
def lines (catalog : AssetCatalog) (labels : OrderedMap String String) (plan : ScriptPlan) : List Line :=
  (plan.sections catalog labels ++ plan.blocks catalog labels).flatten

/-- An `image` statement declares a picture that the scenes use. -/
theorem image_declared {catalog : AssetCatalog} {labels : OrderedMap String String} {plan : ScriptPlan}
    {l : Line} {name path : String} (h : l ∈ plan.lines catalog labels)
    (himage : l.statement = .image name path) :
    name ∈ plan.aliases catalog labels ∧
      ∃ u, catalog.byAlias? name = some u ∧ path = imagesDir ++ "/" ++ u.relative := by
  have hdeclared : l ∈ declarations catalog (plan.aliases catalog labels) := by
    obtain ⟨lines, hlines, hl⟩ := List.mem_flatten.1 h
    simp only [sections, List.mem_append] at hlines
    rcases hlines with ((hlines | hlines) | hlines) | hlines
    · split at hlines
      · cases hlines
      · exact List.mem_singleton.1 hlines ▸ hl
    · exact absurd himage (noImage_entrySections plan lines hlines l hl name path)
    · split at hlines
      · cases hlines
      · exact absurd himage (noImage_blocks _ _ _ lines hlines l hl name path)
    · exact absurd himage (noImage_blocks _ _ _ lines hlines l hl name path)
  obtain ⟨alias', ha, hl⟩ := List.mem_filterMap.1 hdeclared
  obtain ⟨u, hu, rfl⟩ := Option.map_eq_some_iff.1 hl
  obtain ⟨rfl, rfl⟩ := Statement.image.inj himage
  exact ⟨ha, u, hu, rfl⟩

end ScriptPlan

namespace Preparation

open Layout

variable {fs fs' : FileSystem} {options : ExportOptions} {p : Preparation} {now : Timestamp} {a : Artifact}

/-- A game of the bundle: its directory, what its script is made of, and its manifest. -/
structure Tree where
  dir : String
  plan : ScriptPlan
  manifest : ExportManifest

/-- The game of the bundle and those of its forks. -/
def trees (options : ExportOptions) (p : Preparation) : List Tree :=
  ⟨"", masterPlan options p.compiled (p.compiled.placed p.docs) p.plan, p.masterManifest⟩ ::
    p.forks.map fun f =>
      ⟨Layout.fork f.1.slug, forkPlan options p.compiled f.1, p.forkManifest f.1 f.2.1 f.2.2⟩

/-- The pictures that the manifest of a game records. -/
def Tree.records (t : Tree) : List AssetUsage := t.manifest.backgrounds ++ t.manifest.portraits

theorem image_injective {a b : String} (h : image a = image b) : a = b := by
  apply String.toList_injective
  have := congrArg String.toList h
  simpa [image] using this

section
variable (hp : Settled fs options p)
include hp

/-- A picture in use whose alias is given is among the copies. -/
theorem mem_images_of_alias (hw : fs.WellFormed) {aliases : List String} {u : AssetUsage}
    (hu : u ∈ p.compiled.catalog.usages) (ha : u.alias_ ∈ aliases) :
    (u.output, u.source) ∈ p.images aliases := by
  obtain ⟨v, hv, -, hrel⟩ := (Compilation.catalogued_ofScenes hp.compiled_eq).sound.byAlias? hu
  have hmem : (v.output, v.source) ∈
      (aliases.filterMap p.compiled.catalog.byAlias?).map fun u => (u.output, u.source) :=
    List.mem_map.2 ⟨v, List.mem_filterMap.2 ⟨_, ha, hv⟩, rfl⟩
  have hkey : u.output ∈ (OrderedMap.ofList
      ((aliases.filterMap p.compiled.catalog.byAlias?).map fun u => (u.output, u.source))).keys :=
    OrderedMap.mem_keys_ofList.2 (List.mem_map.2 ⟨_, hmem, congrArg image hrel⟩)
  obtain ⟨⟨path, source⟩, he, rfl⟩ := List.mem_map.1 hkey
  obtain ⟨w, hw', heq, -⟩ := mem_images he
  obtain ⟨hpath, rfl⟩ := Prod.mk.inj heq
  -- pictures with one path have one source
  have hsource : w.source = u.source := by
    rw [(hp.origin hw hw').source_eq, (hp.origin hw hu).source_eq, image_injective hpath.symm]
  rwa [hsource] at he

/-- The game and the manifest of a tree are put into the bundle. -/
theorem mem_files_of_tree {t : Tree} (ht : t ∈ p.trees options) {text : String → ExportManifest → String}
    (ha : a ∈ p.gameTree t.dir (t.plan.render p.compiled.catalog p.compiled.labels) ++
      p.manifestFiles t.dir (text t.dir t.manifest)) : a ∈ p.files text := by
  simp only [files, List.mem_append, List.mem_flatMap] at ha ⊢
  rcases List.mem_cons.1 ht with rfl | ht
  · rw [← hp.master_eq] at ha
    rcases ha with ha | ha
    · exact .inl (.inl (.inl ha))
    · exact .inr ha
  · obtain ⟨f, hf, rfl⟩ := List.mem_map.1 ht
    obtain ⟨-, route, -, rfl⟩ := hp.mem_forks hf
    exact .inl (.inl (.inr ⟨_, hf, List.mem_append.2 ha⟩))

theorem copied_of_alias (hw : fs.WellFormed) {t : Tree} (ht : t ∈ p.trees options) {u : AssetUsage}
    (hu : u ∈ p.compiled.catalog.usages) (ha : u.alias_ ∈ t.plan.aliases p.compiled.catalog p.compiled.labels)
    (text : String → ExportManifest → String) : (under t.dir u.output, .copyOf u.source) ∈ p.files text := by
  have himage : (under t.dir u.output, Content.copyOf u.source) ∈
      (p.images (t.plan.aliases p.compiled.catalog p.compiled.labels)).map
        fun e => (under t.dir e.1, Content.copyOf e.2) :=
    List.mem_map.2 ⟨(u.output, u.source), mem_images_of_alias hp hw hu ha, rfl⟩
  apply mem_files_of_tree hp ht
  exact List.mem_append_left _ (List.mem_append_left _ (List.mem_append_left _ himage))

/-- The path of an `image` statement is that of a copied picture. -/
theorem image_copied (hw : fs.WellFormed) {t : Tree} (ht : t ∈ p.trees options) {l : Line}
    (hl : l ∈ t.plan.lines p.compiled.catalog p.compiled.labels) {name path : String}
    (himage : l.statement = .image name path) (text : String → ExportManifest → String) :
    ∃ source, (under t.dir (gameDir ++ "/" ++ path), .copyOf source) ∈ p.files text := by
  obtain ⟨hname, u, hu, rfl⟩ := ScriptPlan.image_declared hl himage
  obtain ⟨husages, rfl⟩ := AssetCatalog.byAlias?_eq_some hu
  have hpath : gameDir ++ "/" ++ (imagesDir ++ "/" ++ u.relative) = u.output := by
    simp only [AssetUsage.output, image, String.append_assoc]
  rw [hpath]
  exact ⟨u.source, copied_of_alias hp hw ht husages hname text⟩

/-- A manifest records the pictures in use whose aliases its game uses. -/
theorem mem_records_iff {t : Tree} (ht : t ∈ p.trees options) {u : AssetUsage} :
    u ∈ t.records ↔
      u ∈ p.compiled.catalog.usages ∧ u.alias_ ∈ t.plan.aliases p.compiled.catalog p.compiled.labels := by
  have hkept (keep : AssetUsage → Bool) :
      u ∈ (p.compiled.catalog.used .background).filter keep ++ (p.compiled.catalog.used .portrait).filter keep ↔
        u ∈ p.compiled.catalog.usages ∧ keep u = true := by
    rw [← List.filter_append, List.mem_filter]
    rfl
  rcases List.mem_cons.1 ht with rfl | hfork
  · refine (hkept _).trans (and_congr_right fun husages => iff_of_true rfl ?_)
    exact ScriptPlan.mem_aliases (Compilation.catalogued_ofScenes hp.compiled_eq) husages (fun _ hs => hs) _
  · obtain ⟨f, hf, rfl⟩ := List.mem_map.1 hfork
    obtain ⟨-, route, -, rfl⟩ := hp.mem_forks hf
    exact (hkept _).trans (and_congr_right fun _ => List.contains_iff_mem)

/-- A manifest records pictures that are copied beside it. -/
theorem record_copied (hw : fs.WellFormed) {t : Tree} (ht : t ∈ p.trees options) {u : AssetUsage}
    (hu : u ∈ t.records) (text : String → ExportManifest → String) :
    u ∈ p.compiled.catalog.usages ∧ (under t.dir u.output, .copyOf u.source) ∈ p.files text := by
  obtain ⟨husages, halias⟩ := (mem_records_iff hp ht).1 hu
  exact ⟨husages, copied_of_alias hp hw ht husages halias text⟩

end

/-- An artifact is a file with the bytes that it was written with, after others. -/
def Held (fs fs' : FileSystem) (options : ExportOptions) (before : List Artifact) (a : Artifact) : Prop :=
  ∃ bytes, bytesPut fs options.output before a = some bytes ∧
    fs'.fileAt (fs.place (options.output.join a.1)) = some bytes

/-- What an export keeps of the artifacts that it puts into the bundle. -/
structure Kept (fs fs' : FileSystem) (options : ExportOptions) (now : Timestamp) (p : Preparation) : Prop where
  /-- These artifacts are what the run has put, in this order. -/
  written : ∃ t w', Runs (Export.write p options now) ⟨fs, { root := options.output, dryRun := false }⟩ t w' ∧
    w'.files = fs' ∧
    w'.sink.written = (p.files (settledText fs options now)).map fun a => options.output.join a.1
  /-- A path of the output that does not go up leads there still. -/
  leads : ".." ∉ options.output.segments → fs'.Leads options.output
  /-- An artifact is kept if a walk meets it under a path that was produced, and no other replaces it. -/
  held_iff : fs'.Leads options.output → ∀ before a after,
    p.files (settledText fs options now) = before ++ a :: after →
      (Held fs fs' options before a ↔ p.Recognised a.1 ∧
        overlay fs options.output (p.files (settledText fs options now))
          (fs.place (options.output.join a.1)) = bytesPut fs options.output before a)
  held_of_recognised : ∀ before a after, p.files (settledText fs options now) = before ++ a :: after →
    p.Recognised a.1 → overlay fs options.output (p.files (settledText fs options now))
        (fs.place (options.output.join a.1)) = bytesPut fs options.output before a →
      Held fs fs' options before a
  /-- With clean paths of pictures all artifacts are kept. -/
  held_of_clean : p.CleanPictures → ∀ before a after,
    p.files (settledText fs options now) = before ++ a :: after → Held fs fs' options before a
  /-- Where pictures are apart from the output the artifacts are written with the bytes from before the run. -/
  bytes_eq : Apart fs options p → ∀ before a after,
    p.files (settledText fs options now) = before ++ a :: after →
      bytesPut fs options.output before a = a.2.bytesIn fs
  apart : Outside fs options → (∀ u ∈ p.compiled.catalog.usages, Path.startsAtRoot u.relative = false) →
    Apart fs options p
  /-- The games of the bundle, and their manifests, are among the artifacts. -/
  tree : ∀ t ∈ p.trees options, ∀ a ∈ p.gameTree t.dir (t.plan.render p.compiled.catalog p.compiled.labels) ++
    p.manifestFiles t.dir (settledText fs options now t.dir t.manifest), a ∈ p.files (settledText fs options now)
  /-- What the scripts declare are artifacts. -/
  image : ∀ t ∈ p.trees options, ∀ l ∈ t.plan.lines p.compiled.catalog p.compiled.labels, ∀ name path,
    l.statement = .image name path → ∃ source,
      (under t.dir (gameDir ++ "/" ++ path), .copyOf source) ∈ p.files (settledText fs options now)
  /-- What the manifests record are artifacts, with their digests and sizes. -/
  record : ∀ t ∈ p.trees options, ∀ u ∈ t.records,
    (under t.dir u.output, .copyOf u.source) ∈ p.files (settledText fs options now) ∧
      ∃ bytes, (Content.copyOf u.source).bytesIn fs = some bytes ∧ u.sha256 = Hash.sha256Hex bytes ∧
        u.size = bytes.size

/-- An export keeps what it has produced, except for copies that a walk meets under another path. -/
theorem artifacts_kept_iff {store : Store} {reviewers : Reviewers BundleView} {r : ExportResult}
    (hw : fs.WellFormed) (hreal : options.dryRun = false)
    (h : Export.run fs store options reviewers now = (.ok r, fs')) :
    Kept fs fs' options now r.prepared := by
  have hd := delivered_of_run hw hreal h
  have hp := hd.settled
  -- the place of an artifact is never left empty by what is put
  have held {before after : List Artifact} {a : Artifact}
      (hsplit : r.prepared.files (settledText fs options now) = before ++ a :: after)
      (hfile : fs'.fileAt (fs.place (options.output.join a.1)) =
        overlay fs options.output (r.prepared.files (settledText fs options now))
          (fs.place (options.output.join a.1)))
      (hlast : overlay fs options.output (r.prepared.files (settledText fs options now))
        (fs.place (options.output.join a.1)) = bytesPut fs options.output before a) :
      Held fs fs' options before a := by
    obtain ⟨bytes, hbytes⟩ := Option.isSome_iff_exists.1 (hd.overlay_isSome (a := a) (by simp [hsplit]))
    exact ⟨bytes, hlast.symm.trans hbytes, hfile.trans hbytes⟩
  constructor
  · obtain ⟨-, w', hrun, hfiles, -⟩ := Export.runs_of_run h
    rw [hreal] at hrun
    obtain ⟨mid, hmid, hsink, -⟩ := written_of_write hp hw hrun
    exact ⟨r.manifest, w', hrun, hfiles, by rw [hsink, hmid.written_eq]⟩
  · exact hd.leads_after
  · intro hl before a after hsplit
    have ha : a ∈ r.prepared.files (settledText fs options now) := by simp [hsplit]
    constructor
    · rintro ⟨bytes, hbytes, hfile⟩
      have hrec : r.prepared.Recognised a.1 := by
        apply Classical.byContradiction
        intro hr
        rw [hd.fileAt_of_unrecognised ha hr hl] at hfile
        cases hfile
      exact ⟨hrec, by rw [← hd.fileAt_of_recognised ha hrec, hfile, hbytes]⟩
    · rintro ⟨hrec, hlast⟩
      exact held hsplit (hd.fileAt_of_recognised ha hrec) hlast
  · exact fun before a after hsplit hrec hlast =>
      held hsplit (hd.fileAt_of_recognised (by simp [hsplit]) hrec) hlast
  · intro hc before a after hsplit
    exact held hsplit (hd.fileAt_of_clean hc (by simp [hsplit])) (hd.overlay_of_clean hc hsplit)
  · exact fun hapart before a after hsplit => hd.bytesPut_of_apart hapart hsplit
  · exact fun hout hrelative => hout.apart hp hw hrelative
  · exact fun t ht a ha => mem_files_of_tree hp ht ha
  · intro t ht l hl name path himage
    exact image_copied hp hw ht hl himage _
  · intro t ht u hu
    obtain ⟨husages, hcopied⟩ := record_copied hp hw ht hu (settledText fs options now)
    obtain ⟨bytes, hfile, hsha, hsize, -⟩ := (hp.origin hw husages).file
    exact ⟨hcopied, bytes, hfile, hsha, hsize⟩

/-- A picture, and a scene that names it with two slashes. -/
def forestFiles : FileSystem where
  nodes := .ofList [(["assets"], .directory), (["assets", "backgrounds"], .directory),
    (["assets", "backgrounds", "forest.png"], .file (Bytes.ofList [1]))]

def forestShelf : Shelf :=
  (({} : Shelf).addProject { id := "p", scenes := ["s"] }).addScene
    { id := "s", background := some "backgrounds//forest.png" }

def forestOptions : ExportOptions := { project := "p", output := ⟨"out"⟩, assets := ⟨"assets"⟩ }

set_option maxRecDepth 100000 in
/-- The copy of a picture that is named with two slashes is taken for a leftover. -/
theorem copy_lost_of_two_slashes :
    forestFiles.WellFormed ∧ Outside forestFiles forestOptions ∧ ∃ r fs',
      Export.run forestFiles (.memory forestShelf) forestOptions {} default = (.ok r, fs') ∧
      ∃ before a after, r.prepared.files (settledText forestFiles forestOptions default) = before ++ a :: after ∧
        ¬Held forestFiles fs' forestOptions before a := by
  have hw : forestFiles.WellFormed := by decide +kernel
  have hout : Outside forestFiles forestOptions := by
    unfold Outside
    decide +kernel
  have hrun : (match Export.run forestFiles (.memory forestShelf) forestOptions {} default with
      | (.ok r, _) =>
        r.prepared.paths.contains "game/images/backgrounds//forest.png" &&
        !r.prepared.paths.contains "game/images/backgrounds/forest.png"
      | (.error _, _) => false) = true := by
    decide +kernel
  split at hrun
  · next r fs' hr =>
    simp only [Bool.and_eq_true, List.contains_iff_mem, Bool.not_eq_true', Bool.eq_false_iff] at hrun
    obtain ⟨hpath, hno⟩ := hrun
    have hkept := artifacts_kept_iff hw rfl hr
    rw [← paths_files (settledText forestFiles forestOptions default)] at hpath
    obtain ⟨a, ha, heq⟩ := List.mem_map.1 hpath
    obtain ⟨before, after, hsplit⟩ := List.append_of_mem ha
    refine ⟨hw, hout, r, fs', hr, before, a, after, hsplit, fun hheld => hno (List.contains_iff_mem.2 ?_)⟩
    have hrec := ((hkept.held_iff (hkept.leads (by decide)) before a after hsplit).1 hheld).1
    have hwalked : Sink.walkedName (names "game/images/backgrounds//forest.png") =
        "game/images/backgrounds/forest.png" := by decide +kernel
    rwa [heq, Recognised, hwalked] at hrec
  · cases hrun

end Preparation

end StoryPress
