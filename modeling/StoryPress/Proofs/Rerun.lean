import StoryPress.Proofs.Idle
import StoryPress.Proofs.Kept
import StoryPress.Proofs.Predicted
import StoryPress.Proofs.Remembered
import StoryPress.Proofs.Unmoved

/-!
# Exports made again

An export that is made again finds its artifacts in place, and leaves them so. Its manifests keep their time, as
nothing else in them has changed.

* `Course`: a run over files that stay as they are; `Course.write`: it puts all artifacts;
* `Delivered.artifacts_again`: the artifacts of an export that is made again are those of the first;
* `Delivered.inPlace`: they are in place where the path of the output still leads to its directory;
* `repeats_iff_leads`: there an export repeats itself. Pruning can close the way of a path that goes up, and a dry
  run then finds nothing of what was left.
-/

namespace StoryPress

open Layout

namespace Preparation

variable {fs fs' : FileSystem} {options : ExportOptions} {p : Preparation} {now now' : Timestamp} {a : Artifact}

/-! ## Runs over files that stay -/

/-- What holds of a sink once some artifacts are put among files that stay as they are: each artifact of the
export can be put, and keeps it. -/
structure Course (fs : FileSystem) (options : ExportOptions) (now : Timestamp) (p : Preparation)
    (holds : List Artifact → Sink → Prop) : Prop where
  put : ∀ {done a s}, holds done s → a ∈ p.artifacts fs options now →
    ∃ s', Runs (Sink.put a.1 a.2) ⟨fs, s⟩ (s.root.join a.1) ⟨fs, s'⟩ ∧ holds (done ++ [a]) s'

namespace Course

variable {holds : List Artifact → Sink → Prop} {done as : List Artifact} {s : Sink}

theorem putAll (h : Course fs options now p holds) (hs : holds done s)
    (hsub : ∀ a ∈ as, a ∈ p.artifacts fs options now) :
    ∃ s', Runs (Export.putAll as) ⟨fs, s⟩ () ⟨fs, s'⟩ ∧ holds (done ++ as) s' := by
  induction as generalizing done s with
  | nil => exact ⟨s, Runs.pure_iff.2 ⟨rfl, rfl⟩, by rwa [List.append_nil]⟩
  | cons a as ih =>
    obtain ⟨s₁, hput, hs₁⟩ := h.put hs (hsub a (by simp))
    obtain ⟨s₂, hrest, hs₂⟩ := ih hs₁ fun b hb => hsub b (by simp [hb])
    exact ⟨s₂, Runs.bind_iff.2 ⟨_, _, hput, hrest⟩, by simpa using hs₂⟩

theorem manifest (h : Course fs options now p holds) (hs : holds done s) {dir : String} {m : ExportManifest}
    (hsub : ∀ a ∈ p.manifestFiles dir (manifestText fs options now dir m), a ∈ p.artifacts fs options now) :
    ∃ s', Runs (Export.putManifest p options now dir m) ⟨fs, s⟩ (manifestText fs options now dir m) ⟨fs, s'⟩ ∧
      holds (done ++ p.manifestFiles dir (manifestText fs options now dir m)) s' := by
  obtain ⟨s', hput, hs'⟩ := h.putAll hs hsub
  refine ⟨s', Runs.bind_iff.2 ⟨_, _, Runs.reading_iff.2 ⟨rfl, rfl⟩, ?_⟩, hs'⟩
  exact Runs.bind_iff.2 ⟨(), _, hput, Runs.pure_iff.2 ⟨rfl, rfl⟩⟩

theorem forks (h : Course fs options now p holds) (hs : holds done s)
    {rest : List (Route × List CompiledScene × RenderedScript)} (hsub : ∀ f ∈ rest, f ∈ p.forks) :
    ∃ s', Runs (Export.putForks p options now rest) ⟨fs, s⟩ () ⟨fs, s'⟩ ∧
      holds (done ++ rest.flatMap (p.forkFiles (manifestText fs options now))) s' := by
  induction rest generalizing done s with
  | nil => exact ⟨s, Runs.pure_iff.2 ⟨rfl, rfl⟩, by simpa using hs⟩
  | cons f rest ih =>
    have hfiles : ∀ a ∈ p.forkFiles (manifestText fs options now) f, a ∈ p.artifacts fs options now := by
      intro a ha
      simp only [artifacts, files, List.mem_append, List.mem_flatMap]
      exact .inl (.inl (.inr ⟨f, hsub f (by simp), ha⟩))
    obtain ⟨s₁, hgame, hs₁⟩ := h.putAll hs fun a ha => hfiles a (List.mem_append_left _ ha)
    obtain ⟨s₂, hmanifest, hs₂⟩ := h.manifest hs₁ fun a ha => hfiles a (List.mem_append_right _ ha)
    obtain ⟨s₃, hrest, hs₃⟩ := ih hs₂ fun g hg => hsub g (by simp [hg])
    refine ⟨s₃, Runs.bind_iff.2 ⟨(), _, hgame, Runs.bind_iff.2 ⟨_, _, hmanifest, hrest⟩⟩, ?_⟩
    simpa [forkFiles] using hs₃

/-- Writing puts all artifacts, and then prunes. -/
theorem write (h : Course fs options now p holds) (hs : holds [] s) :
    ∃ s', holds (p.artifacts fs options now) s' ∧ ∀ w', Runs (Export.pruneAll generated) ⟨fs, s'⟩ () w' →
      Runs (Export.write p options now) ⟨fs, s⟩ (manifestText fs options now "" p.masterManifest) w' := by
  have hmem {a : Artifact} : a ∈ p.artifacts fs options now ↔
      ((a ∈ p.gameTree "" p.master ∨ a ∈ p.forks.flatMap (p.forkFiles (manifestText fs options now))) ∨
        a ∈ [(Layout.labelManifest, .text p.labelManifest.pretty)]) ∨
        a ∈ p.manifestFiles "" (manifestText fs options now "" p.masterManifest) := by
    simp only [artifacts, files, List.mem_append]
  have hlabel : ∀ a ∈ [(Layout.labelManifest, Content.text p.labelManifest.pretty)],
      a ∈ p.artifacts fs options now := fun a ha => hmem.2 (.inl (.inr ha))
  have hmaster : ∀ a ∈ p.manifestFiles "" (manifestText fs options now "" p.masterManifest),
      a ∈ p.artifacts fs options now := fun a ha => hmem.2 (.inr ha)
  obtain ⟨s₁, hgame, hs₁⟩ := h.putAll hs fun a ha => hmem.2 (.inl (.inl (.inl ha)))
  obtain ⟨s₂, hforks, hs₂⟩ := h.forks hs₁ fun f (hf : f ∈ p.forks) => hf
  obtain ⟨s₃, hlabels, hs₃⟩ := h.putAll hs₂ hlabel
  obtain ⟨s₄, hmanifest, hs₄⟩ := h.manifest hs₃ hmaster
  refine ⟨s₄, by simpa [artifacts, files] using hs₄, fun w' hprune => ?_⟩
  refine Runs.bind_iff.2 ⟨(), _, hgame, Runs.bind_iff.2 ⟨(), _, hforks, Runs.bind_iff.2 ⟨(), _, hlabels, ?_⟩⟩⟩
  refine Runs.bind_iff.2 ⟨_, _, hmanifest, Runs.bind_iff.2 ⟨(), _, hprune, Runs.pure_iff.2 ⟨rfl, rfl⟩⟩⟩

end Course

/-- The sink of a real run that has put some artifacts. -/
def realSink (root : Path) (as : List Artifact) : Sink where
  root := root
  dryRun := false
  written := as.map fun a => root.join a.1
  produced := (as.map (·.1)).reverse

theorem course_real (hw : fs.WellFormed)
    (h : ∀ a ∈ p.artifacts fs options now, ∃ bytes, a.2.InPlace fs (options.output.join a.1) bytes) :
    Course fs options now p fun as s => s = realSink options.output as := by
  refine ⟨fun {done a s} hs ha => ?_⟩
  obtain ⟨bytes, hplace⟩ := h a ha
  subst hs
  exact ⟨_, Sink.put_idle hw rfl hplace, by simp [realSink]⟩

/-- The sink of a dry run that has compared some artifacts. -/
def drySink (root : Path) (as : List Artifact) (changes : List Change) : Sink where
  root := root
  dryRun := true
  changes := changes
  produced := (as.map (·.1)).reverse

/-- The paths of artifacts, each with one status, are what changes say. -/
def SayAll (status : ChangeStatus) (paths : List String) (changes : List Change) : Prop :=
  changes.map (fun c => (c.path, c.status)) = paths.map fun path => (path, status)

theorem course_dry {status : ChangeStatus}
    (h : ∀ a ∈ p.artifacts fs options now,
      ∃ c, Sink.changeFor fs a.1 (options.output.join a.1) a.2 = .ok c ∧ c.path = a.1 ∧ c.status = status) :
    Course fs options now p fun as s =>
      ∃ changes, SayAll status (as.map (·.1)) changes ∧ s = drySink options.output as changes := by
  refine ⟨fun {done a s} hs ha => ?_⟩
  obtain ⟨change, hchange, hpath, hstatus⟩ := h a ha
  obtain ⟨changes, hsay, rfl⟩ := hs
  refine ⟨_, Sink.put_dry rfl hchange, changes ++ [change], ?_, ?_⟩
  · unfold SayAll at hsay ⊢
    simp only [List.map_append, hsay, List.map_cons, List.map_nil, hpath, hstatus]
  · simp [drySink]

/-! ## What an export has left -/

theorem text?_toUTF8 (s : String) : Bytes.text? s.toUTF8 = some s := dif_pos s.isValidUTF8

theorem isTree_of_mem (hp : Settled fs options p) {t : Tree} (ht : t ∈ p.trees options) : IsTree t.dir := by
  rcases List.mem_cons.1 ht with rfl | ht
  · exact .inl rfl
  · obtain ⟨f, hf, rfl⟩ := List.mem_map.1 ht
    exact isTree_fork hp hf

/-- The texts of an export can be read again. -/
def FitTexts (p : Preparation) (text : String → ExportManifest → String) : Prop :=
  ∀ a ∈ p.files text, ∀ t, a.2 = .text t → t.toUTF8.size ≤ maxDocumentBytes

/-- Where the time is not pinned, the text of each manifest is read back as the manifest. -/
def ReadBack (fs : FileSystem) (options : ExportOptions) (now : Timestamp) (p : Preparation) : Prop :=
  options.generatedAt = none → ∀ t ∈ p.trees options,
    Json.parse Json.Tree.value (settledText fs options now t.dir t.manifest) =
      .ok (Json.normalize (t.manifest.toJson
        (t.manifest.timeFor (heldText fs (manifestPlace fs options t.dir)) options.generatedAt now)))

theorem files_congr_trees {text text' : String → ExportManifest → String}
    (h : ∀ t ∈ p.trees options, text t.dir t.manifest = text' t.dir t.manifest) : p.files text = p.files text' := by
  have hmaster : text "" p.masterManifest = text' "" p.masterManifest := h _ List.mem_cons_self
  have hforks : p.forks.flatMap (p.forkFiles text) = p.forks.flatMap (p.forkFiles text') := by
    apply List.flatMap_congr
    intro f hf
    have hfork := h _ (List.mem_cons_of_mem _ (List.mem_map_of_mem hf))
    simp only [forkFiles, hfork]
  simp only [files, hforks, hmaster]

namespace Delivered

variable (h : Delivered fs fs' options now p)
include h

/-- An artifact has the bytes of its content. -/
theorem fileAt_artifact (hc : p.CleanPictures) (hapart : Apart fs options p)
    (ha : a ∈ p.files (settledText fs options now)) :
    fs'.fileAt (fs.place (options.output.join a.1)) = a.2.bytesIn fs := by
  obtain ⟨before, after, hsplit⟩ := List.append_of_mem ha
  rw [h.fileAt_of_clean hc ha, h.overlay_of_clean hc hsplit, h.bytesPut_of_apart hapart hsplit]

/-- The text of a manifest is in its place. -/
theorem heldText_manifest (hc : p.CleanPictures) (hfit : p.FitTexts (settledText fs options now)) {t : Tree}
    (ht : t ∈ p.trees options) :
    heldText fs' (manifestPlace fs' options t.dir) = some (settledText fs options now t.dir t.manifest) := by
  have ha : (under t.dir exportManifest, Content.text (settledText fs options now t.dir t.manifest)) ∈
      p.files (settledText fs options now) :=
    mem_files_of_tree h.settled ht (List.mem_append_right _ (by simp [manifestFiles, stamped]))
  obtain ⟨before, after, hsplit⟩ := List.append_of_mem ha
  have hfile := (h.fileAt_of_clean hc ha).trans (h.overlay_of_clean hc hsplit)
  have hplace : manifestPlace fs' options t.dir =
      fs.place (options.output.join (under t.dir exportManifest)) := by
    rw [place_inBundle (clean_manifests.1.under (isTree_of_mem h.settled ht)).inBundle, manifestPlace, h.place_eq]
  have hsize := hfit _ ha _ rfl
  rw [heldText, hplace, hfile]
  simp only [bytesPut, Content.putAt, Option.bind_some, if_neg (Nat.not_lt.2 hsize), text?_toUTF8]

/-- A manifest made again is the one that is there, whatever the time. -/
theorem manifestText_again (hc : p.CleanPictures) (hfit : p.FitTexts (settledText fs options now)) {t : Tree}
    (ht : t ∈ p.trees options) (hread : ReadBack fs options now p) (hl : fs'.Leads options.output)
    (now' : Timestamp) :
    manifestText fs' options now' t.dir t.manifest = settledText fs options now t.dir t.manifest := by
  have htime : t.manifest.timeFor (some (settledText fs options now t.dir t.manifest)) options.generatedAt now' =
      t.manifest.timeFor (heldText fs (manifestPlace fs options t.dir)) options.generatedAt now := by
    cases hpinned : options.generatedAt with
    | some time => rfl
    | none =>
      have hback := hread hpinned t ht
      rw [hpinned] at hback
      exact ExportManifest.timeFor_self hback
  rw [manifestText, earlierText_eq h.wellFormed_after (isTree_of_mem h.settled ht) hl,
    h.heldText_manifest hc hfit ht, htime]
  rfl

theorem artifacts_again (hc : p.CleanPictures) (hfit : p.FitTexts (settledText fs options now))
    (hread : ReadBack fs options now p) (hl : fs'.Leads options.output) (now' : Timestamp) :
    p.artifacts fs' options now' = p.files (settledText fs options now) :=
  files_congr_trees fun _ ht => h.manifestText_again hc hfit ht hread hl now'

section
variable (hc : p.CleanPictures) (hu : Undisturbed fs fs' options p)
include hc hu

theorem apart_of_undisturbed : Apart fs options p :=
  hu.outside.apart h.settled h.wellFormed fun _ hmem =>
    (clean_relative h.settled h.wellFormed hc hmem).inBundle.relative

/-- A picture is read as before. -/
theorem sameFile_source {u : AssetUsage} (hmem : u ∈ p.compiled.catalog.usages) :
    FileSystem.SameFile fs fs' u.source := by
  have hin := (clean_relative h.settled h.wellFormed hc hmem).inBundle
  rw [(h.settled.origin h.wellFormed hmem).source_eq]
  exact Compilation.sameFile_below h.beside hu.assets hu.outside.beside hin.relative hin.never_up

theorem stat_source {u : AssetUsage} (hmem : u ∈ p.compiled.catalog.usages) :
    ∃ bytes, fs'.stat u.source = .ok (.file bytes) ∧ fs.fileAt (fs.place u.source) = some bytes ∧
      bytes.size ≤ maxAssetBytes := by
  obtain ⟨-, -, hfound, bytes, hfile, -, -, hsize⟩ := h.settled.origin h.wellFormed hmem
  have hstat : fs.stat u.source = .ok (.file bytes) :=
    FileSystem.stat_of_locate hfound (FileSystem.fileAt_eq_some_iff.1 hfile)
  exact ⟨bytes, (h.sameFile_source hc hu hmem bytes).2 hstat, hfile, hsize⟩

/-- Where the path of the output still leads to its directory, each artifact is in place. -/
theorem inPlace (hl : fs'.Leads options.output) (ha : a ∈ p.files (settledText fs options now)) :
    ∃ bytes, a.2.InPlace fs' (options.output.join a.1) bytes ∧ a.2.bytesIn fs = some bytes := by
  have hapart := h.apart_of_undisturbed hc hu
  have hclean := clean_files h.settled h.wellFormed hc ha
  obtain ⟨bytes, hbytes⟩ := Option.isSome_iff_exists.1 (bytesIn_isSome h.settled h.wellFormed ha)
  have hfile := (h.fileAt_artifact hc hapart ha).trans hbytes
  have hstat : fs'.stat (options.output.join a.1) = .ok (.file bytes) := by
    have hthere : fs'.isFile (options.output.join a.1) = true := by
      rw [hclean.isFile_iff h.wellFormed_after, ← place_inBundle hclean.inBundle, h.place_eq, hfile]
      exact ⟨hl, rfl⟩
    obtain ⟨c, hc⟩ := FileSystem.isFile_iff_stat.1 hthere
    have hat := (FileSystem.stat_eq_file_iff.1 hc).2.2
    rw [h.place_eq, hfile] at hat
    obtain rfl := Option.some.inj hat
    exact hc
  refine ⟨bytes, ⟨hstat, ?_, ?_⟩, hbytes⟩
  · obtain ⟨dir, -, u, hmem, rfl⟩ | ⟨-, t, ht⟩ := mem_files h.settled ha
    · obtain ⟨c, hc, hold, -⟩ := h.stat_source hc hu hmem
      obtain rfl : c = bytes := Option.some.inj (hold.symm.trans hbytes)
      exact (FileSystem.stat_eq_file_iff.1 hc).2.2
    · rw [ht] at hbytes ⊢
      exact hbytes
  · intro source hsource
    obtain ⟨dir, -, u, hmem, rfl⟩ | ⟨-, t, ht⟩ := mem_files h.settled ha
    · obtain rfl : u.source = source := by simpa using hsource
      obtain ⟨c, hc, -⟩ := h.stat_source hc hu hmem
      refine ⟨FileSystem.isFile_iff_stat.2 ⟨c, hc⟩, ?_⟩
      rw [h.place_eq, h.place_eq]
      exact hapart u hmem _ (paths_files (settledText fs options now) ▸ List.mem_map_of_mem ha)
    · rw [ht] at hsource
      cases hsource

end

/-- A forced export, or a dry run, can use the output. -/
theorem checkOutput_again (hforce : options.force = true) (dryRun : Bool) :
    checkOutput fs' { options with dryRun := dryRun } = .ok () := by
  by_cases hthere : fs'.contains options.output = true
  · have hdir : fs'.isDirectory options.output = true := by
      unfold FileSystem.contains at hthere
      cases hstat : fs'.stat options.output with
      | error e =>
        rw [hstat] at hthere
        cases hthere
      | ok n =>
        obtain ⟨hl, -⟩ := FileSystem.stat_eq_ok hstat
        refine FileSystem.isDirectory_iff.2 ⟨hl, ?_⟩
        rw [h.place_eq]
        exact h.node?_output
    simp [checkOutput, hthere, hdir, hforce]
  · simp [checkOutput, hthere]

theorem nothingStale (hl : fs'.Leads options.output) {s : Sink} (hroot : s.root = options.output)
    (hproduced : s.produced = p.paths.reverse) : ∀ ms ∈ generatedNames, Sink.NothingStale fs' s ms := by
  intro ms hms ns hns hfile
  rw [hroot, h.place_eq] at hfile
  rw [hproduced, List.mem_reverse]
  apply Classical.byContradiction
  intro hnew
  rw [h.fileAt_eq_none hl hms hns hnew] at hfile
  cases hfile

end Delivered

end Preparation

theorem Export.run_of_runs {fs : FileSystem} {store : Store} {options : ExportOptions}
    {reviewers : Reviewers BundleView} {now : Timestamp} {p : Preparation} {t : String} {w' : Workbench}
    (hp : Preparation.run fs store options reviewers = .ok p)
    (hw : Runs (write p options now) ⟨fs, { root := options.output, dryRun := options.dryRun }⟩ t w') :
    ∃ r, run fs store options reviewers now = (.ok r, w'.files) ∧ r.prepared = p ∧ r.manifest = t ∧
      r.changes = w'.sink.changes := by
  have hrun : (write p options now).run.run ⟨fs, { root := options.output, dryRun := options.dryRun }⟩ =
      (.ok t, w') := hw
  unfold run
  simp only [hp, hrun]
  exact ⟨_, rfl, rfl, rfl, rfl⟩

namespace Preparation

variable {fs fs' : FileSystem} {store : Store} {options : ExportOptions} {reviewers : Reviewers BundleView}
  {p : Preparation} {now : Timestamp} {a : Artifact}

namespace Delivered

variable (h : Delivered fs fs' options now p) (hp : run fs store options reviewers = .ok p)
  (hforce : options.force = true) (hc : p.CleanPictures) (hu : Undisturbed fs fs' options p)
include h hp hforce hc hu

/-- A dry run after an export reports each artifact with the status of its change, and nothing to remove. -/
theorem dry_run_again (now' : Timestamp) {status : ChangeStatus}
    (hchange : ∀ a ∈ p.artifacts fs' options now',
      ∃ c, Sink.changeFor fs' a.1 (options.output.join a.1) a.2 = .ok c ∧ c.path = a.1 ∧ c.status = status) :
    ∃ r, Export.run fs' store { options with dryRun := true } reviewers now' = (.ok r, fs') ∧ r.prepared = p ∧
      SayAll status p.paths r.changes := by
  have hcourse : Course fs' { options with dryRun := true } now' p fun as s =>
      ∃ changes, SayAll status (as.map (·.1)) changes ∧ s = drySink options.output as changes :=
    course_dry hchange
  obtain ⟨s, ⟨changes, hsay, hs⟩, hwrite⟩ := hcourse.write ⟨[], rfl, rfl⟩
  have hpaths : (p.artifacts fs' { options with dryRun := true } now').map (·.1) = p.paths := paths_files _
  have hroot : s.root = options.output := by rw [hs]; rfl
  have hproduced : s.produced = p.paths.reverse := by rw [hs, ← hpaths]; rfl
  have hprune : Runs (Export.pruneAll generated) ⟨fs', s⟩ () ⟨fs', s⟩ := by
    refine Export.pruneAll_dry_idle (by rw [hs]; rfl) ?_
    rw [generated_eq]
    intro dir hdir
    obtain ⟨ms, hms, rfl⟩ := List.mem_map.1 hdir
    obtain ⟨hne, hnames⟩ := isName_generatedNames ms hms
    exact Sink.removals_eq_nil hne hnames h.wellFormed_after fun hl =>
      h.nothingStale (hroot ▸ hl) hroot hproduced ms hms
  obtain ⟨r, hrun, hprepared, -, hreport⟩ :=
    Export.run_of_runs (run_again h.beside hu (readsBeside_of_clean h.settled h.wellFormed hc _) hp
      (h.checkOutput_again hforce true)) (hwrite _ hprune)
  refine ⟨r, hrun, hprepared, ?_⟩
  rw [hreport, hs, ← hpaths]
  exact hsay

/-- An export made again, where the path of the output still leads to its directory, changes no file. -/
theorem export_again (hreal : options.dryRun = false) (hfit : p.FitTexts (settledText fs options now))
    (hread : ReadBack fs options now p) (hl : fs'.Leads options.output) (now' : Timestamp) :
    ∃ r fs'', Export.run fs' store options reviewers now' = (.ok r, fs'') ∧ r.prepared = p ∧
      r.manifest = settledText fs options now "" p.masterManifest ∧ ∀ l, fs''.fileAt l = fs'.fileAt l := by
  have hartifacts := h.artifacts_again hc hfit hread hl now'
  have hcourse : Course fs' options now' p fun as s => s = realSink options.output as := by
    refine course_real h.wellFormed_after ?_
    rw [hartifacts]
    exact fun a ha => (h.inPlace hc hu hl ha).imp fun _ hb => hb.1
  obtain ⟨s, hs, hwrite⟩ := hcourse.write rfl
  have hroot : s.root = options.output := by rw [hs]; rfl
  have hproduced : s.produced = p.paths.reverse := by
    rw [hs, ← paths_files (manifestText fs' options now')]
    rfl
  have hdry : s.dryRun = false := by rw [hs]; rfl
  obtain ⟨fs'', hprune, -, hsame⟩ := Export.pruneAll_idle isName_generatedNames h.wellFormed_after hdry
    (h.nothingStale hl hroot hproduced)
  rw [← generated_eq] at hprune
  have hagain : run fs' store options reviewers = .ok p :=
    run_again h.beside hu (readsBeside_of_clean h.settled h.wellFormed hc _) hp
      (h.checkOutput_again hforce options.dryRun)
  have hstart : realSink options.output [] = { root := options.output, dryRun := options.dryRun } := by
    rw [hreal]
    rfl
  rw [hstart] at hwrite
  obtain ⟨r, hrun, hprepared, hmanifest, -⟩ := Export.run_of_runs hagain (hwrite _ hprune)
  refine ⟨r, fs'', hrun, hprepared, ?_, hsame⟩
  rw [hmanifest, h.manifestText_again hc hfit List.mem_cons_self hread hl]

end Delivered

section
variable (h : Delivered fs fs' options now p) (hc : p.CleanPictures) (hu : Undisturbed fs fs' options p)
include h hc hu

/-- Where the path of the output leads to its directory, a dry run finds each artifact unchanged. -/
theorem unchanged_of_leads (hfit : p.FitTexts (settledText fs options now)) (hl : fs'.Leads options.output)
    (ha : a ∈ p.files (settledText fs options now)) :
    ∃ c, Sink.changeFor fs' a.1 (options.output.join a.1) a.2 = .ok c ∧ c.path = a.1 ∧ c.status = .unchanged := by
  obtain ⟨bytes, hplace, hbytes⟩ := h.inPlace hc hu hl ha
  refine ⟨_, Sink.changeFor_of_inPlace hplace ?_, rfl, rfl⟩
  obtain ⟨dir, -, u, hmem, rfl⟩ | ⟨-, t, ht⟩ := mem_files h.settled ha
  · obtain ⟨c, -, hold, hsize⟩ := h.stat_source hc hu hmem
    obtain rfl : c = bytes := Option.some.inj (hold.symm.trans hbytes)
    exact hsize
  · have hsize := hfit a ha t ht
    rw [ht] at hbytes ⊢
    exact Option.some.inj hbytes ▸ hsize

/-- Where it does not, a dry run finds nothing. -/
theorem new_of_not_leads (hl : ¬fs'.Leads options.output) {text : String → ExportManifest → String}
    (ha : a ∈ p.files text) :
    ∃ c, Sink.changeFor fs' a.1 (options.output.join a.1) a.2 = .ok c ∧ c.path = a.1 ∧ c.status = .new := by
  apply Sink.changeFor_of_not_isFile
  · apply Bool.eq_false_iff.2
    intro hfile
    have hin := inBundle_files h.settled h.wellFormed ha
    exact hl (FileSystem.leads_of_join hin.relative
      (FileSystem.leads_of_locate (FileSystem.isFile_iff.1 hfile).1)).1
  · intro source hsource
    obtain ⟨dir, -, u, hmem, rfl⟩ | ⟨-, t, ht⟩ := mem_files h.settled ha
    · obtain rfl : u.source = source := by simpa using hsource
      obtain ⟨c, hstat, -, hsize⟩ := h.stat_source hc hu hmem
      exact ⟨c, FileSystem.readWithin_of_stat hstat hsize⟩
    · rw [ht] at hsource
      cases hsource

end

/-- An export made again, at whatever time, changes no file, and a dry run says so. -/
structure Repeats (fs' : FileSystem) (store : Store) (options : ExportOptions) (reviewers : Reviewers BundleView)
    (r : ExportResult) : Prop where
  kept : ∀ now, ∃ r' fs'', Export.run fs' store options reviewers now = (.ok r', fs'') ∧
    r'.prepared = r.prepared ∧ r'.manifest = r.manifest ∧ ∀ l, fs''.fileAt l = fs'.fileAt l
  foreseen : ∀ now, ∃ r', Export.run fs' store { options with dryRun := true } reviewers now = (.ok r', fs') ∧
    r'.prepared = r.prepared ∧ SayAll .unchanged r.prepared.paths r'.changes

/-- A forced export repeats itself if and only if the path of its output still leads to its directory; if it does
not, a dry run takes all that is there for new. A path that does not go up leads there still. Texts must be small
enough to be read again, and manifests without a pinned time must be read as they were written. -/
theorem repeats_iff_leads {r : ExportResult} (hw : fs.WellFormed) (hreal : options.dryRun = false)
    (hforce : options.force = true) (h : Export.run fs store options reviewers now = (.ok r, fs'))
    (hc : r.prepared.CleanPictures) (hu : Undisturbed fs fs' options r.prepared) :
    (r.prepared.FitTexts (settledText fs options now) → ReadBack fs options now r.prepared →
      (Repeats fs' store options reviewers r ↔ fs'.Leads options.output)) ∧
    (¬fs'.Leads options.output → ¬Repeats fs' store options reviewers r ∧ ∀ now', ∃ r',
      Export.run fs' store { options with dryRun := true } reviewers now' = (.ok r', fs') ∧
        SayAll .new r.prepared.paths r'.changes) ∧
    (".." ∉ options.output.segments → fs'.Leads options.output) := by
  have hd := delivered_of_run hw hreal h
  obtain ⟨hp, w', hwrite, -⟩ := Export.runs_of_run h
  have hmanifest : r.manifest = settledText fs options now "" r.prepared.masterManifest := by
    rw [hreal] at hwrite
    exact ((account_written hd.settled hw).write hd.settled (.start fs options.output) hwrite).1
  have hnew (hl : ¬fs'.Leads options.output) (now' : Timestamp) : ∃ r',
      Export.run fs' store { options with dryRun := true } reviewers now' = (.ok r', fs') ∧
        SayAll .new r.prepared.paths r'.changes := by
    obtain ⟨r', hrun, -, hsay⟩ :=
      hd.dry_run_again hp hforce hc hu now' fun a ha => new_of_not_leads hd hc hu hl ha
    exact ⟨r', hrun, hsay⟩
  have hnot (hl : ¬fs'.Leads options.output) : ¬Repeats fs' store options reviewers r := by
    intro hrepeats
    obtain ⟨r', hrun, -, hunchanged⟩ := hrepeats.foreseen now
    obtain ⟨r'', hrun', hsay⟩ := hnew hl now
    obtain rfl := Except.ok.inj (Prod.mk.inj (hrun.symm.trans hrun')).1
    have hscript : Layout.script ∈ r.prepared.paths := by
      simp [paths, files, gameTree, stamped, under]
    cases List.map_inj_left.1 (hunchanged.symm.trans hsay) _ hscript
  refine ⟨fun hfit hread => ⟨fun hrepeats => ?_, fun hl => ⟨fun now' => ?_, fun now' => ?_⟩⟩,
    fun hl => ⟨hnot hl, hnew hl⟩, hd.leads_after⟩
  · exact Classical.byContradiction fun hl => hnot hl hrepeats
  · obtain ⟨r', fs'', hrun, hprepared, hmanifest', hsame⟩ :=
      hd.export_again hp hforce hc hu hreal hfit hread hl now'
    exact ⟨r', fs'', hrun, hprepared, hmanifest'.trans hmanifest.symm, hsame⟩
  · refine hd.dry_run_again hp hforce hc hu now' ?_
    rw [hd.artifacts_again hc hfit hread hl]
    exact fun a ha => unchanged_of_leads hd hc hu hfit hl ha

/-- The output behind a directory of the bundle that is pruned. -/
def prunedOptions : ExportOptions :=
  { project := "p", output := ⟨"out/game/scenes/../.."⟩, assets := ⟨"assets"⟩, force := true }

set_option maxRecDepth 100000 in
/-- Pruning removes the directory through which the path of the output goes, and a dry run does not find what the
export has just left. -/
theorem not_repeats_through_pruned_directory :
    ({} : FileSystem).WellFormed ∧ prunedOptions.dryRun = false ∧ prunedOptions.force = true ∧
    ∃ r fs', Export.run {} (.memory plainShelf) prunedOptions {} default = (.ok r, fs') ∧
      r.prepared.CleanPictures ∧ Undisturbed {} fs' prunedOptions r.prepared ∧
      ¬Repeats fs' (.memory plainShelf) prunedOptions {} r := by
  have hw : ({} : FileSystem).WellFormed := by decide +kernel
  have hreal : (match Export.run {} (.memory plainShelf) prunedOptions {} default with
      | (.ok r, fs') =>
        r.prepared.compiled.catalog.usages.isEmpty && r.prepared.docs.sources.isEmpty &&
          (r.prepared.docs.scenes.all fun s => (SceneNode.ofScene s).all fun n => n.picture?.isNone) &&
          !fs'.isDirectory prunedOptions.output
      | (.error _, _) => false) = true := by
    decide +kernel
  split at hreal
  · next r fs' hrun =>
    simp only [Bool.and_eq_true, Bool.not_eq_true', List.isEmpty_iff, List.all_eq_true, Option.isNone_iff_eq_none]
      at hreal
    obtain ⟨⟨⟨husages, hsources⟩, hpictures⟩, hgone⟩ := hreal
    have hc : r.prepared.CleanPictures := by
      intro u hu
      rw [husages] at hu
      cases hu
    have hu : Undisturbed {} fs' prunedOptions r.prepared := by
      refine undisturbed_of_never_up ⟨by decide, by decide⟩ (by decide) ?_ ?_
      · intro q hq
        rw [hsources] at hq
        cases hq
      · intro s hs node hnode kind reference hpicture
        rw [hpictures s hs node hnode] at hpicture
        cases hpicture
    refine ⟨hw, rfl, rfl, r, fs', hrun, hc, hu, ?_⟩
    obtain ⟨-, hnot, -⟩ := repeats_iff_leads hw rfl rfl hrun hc hu
    refine (hnot fun hl => ?_).1
    have hd := delivered_of_run hw rfl hrun
    have hdir : fs'.isDirectory prunedOptions.output = true :=
      FileSystem.isDirectory_iff.2 ⟨hl.locate (by decide), by rw [hd.place_eq]; exact hd.node?_output⟩
    rw [hgone] at hdir
    cases hdir
  · cases hreal

end Preparation

end StoryPress
