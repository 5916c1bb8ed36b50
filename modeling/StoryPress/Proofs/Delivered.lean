import StoryPress.Proofs.Written

/-!
# What an export leaves

Pruning asks whether the path under which a walk meets a file is one of those that were produced. An artifact
that is met under another path than its own is taken for a leftover, and removed.

* `Delivered`: what a real run has written, and what its pruning leaves of it;
* `Delivered.fileAt_of_recognised`, `Delivered.fileAt_of_unrecognised`: what is in the place of an artifact;
* `Delivered.fileAt_of_clean`, `Delivered.overlay_of_clean`: with clean paths of pictures every artifact is kept;
* `Delivered.bytesPut_of_apart`: the bytes that it is written with are those its source has before the run.
-/

namespace StoryPress.Preparation

open Layout

variable {fs fs' : FileSystem} {options : ExportOptions} {p : Preparation} {now : Timestamp} {a : Artifact}

/-- A walk meets what is in the place of an artifact under a path that was produced. -/
def Recognised (p : Preparation) (path : String) : Prop := Sink.walkedName (names path) ∈ p.paths

theorem recognised_of_clean {text : String → ExportManifest → String} (h : a ∈ p.files text) (hc : Clean a.1) :
    p.Recognised a.1 := by
  unfold Recognised
  rw [hc.walkedName, ← paths_files text]
  exact List.mem_map_of_mem h

/-- The place of an artifact that is not clean lies in a directory that is pruned. -/
theorem generated_of_not_clean (hp : Settled fs options p) (hw : fs.WellFormed)
    {text : String → ExportManifest → String} (h : a ∈ p.files text) (hc : ¬Clean a.1) :
    ∃ ms ∈ generatedNames, ∃ ns, ns ≠ [] ∧ names a.1 = ms ++ ns := by
  obtain ⟨dir, hd, u, hu, rfl⟩ | ⟨hclean, -⟩ := mem_files hp h
  · rw [names_under, show names u.output = _ from names_image u.relative]
    obtain rfl | ⟨slug, hs, rfl⟩ := hd
    · exact ⟨[gameDir, imagesDir], by decide, names u.relative, names_relative_ne hp hw hu, rfl⟩
    · rw [names_fork hs]
      exact ⟨[forksDir], by decide, _, List.cons_ne_nil _ _, rfl⟩
  · exact absurd hclean hc

/-- All artifacts have content. -/
theorem bytesIn_isSome (hp : Settled fs options p) (hw : fs.WellFormed)
    {text : String → ExportManifest → String} (h : a ∈ p.files text) : (a.2.bytesIn fs).isSome := by
  obtain ⟨dir, -, u, hu, rfl⟩ | ⟨-, s, hs⟩ := mem_files hp h
  · obtain ⟨bytes, hfile, -⟩ := (hp.origin hw hu).file
    simp [Content.bytesIn, hfile]
  · simp [hs, Content.bytesIn]

/-- With clean paths of pictures the artifacts have places of their own. -/
theorem nodup_places (hp : Settled fs options p) (hw : fs.WellFormed) (hc : p.CleanPictures)
    (text : String → ExportManifest → String) :
    ((p.files text).map fun a => fs.place (options.output.join a.1)).Nodup := by
  have hplaces : (p.files text).map (fun a => fs.place (options.output.join a.1)) =
      ((p.files text).map fun a => names a.1).map (fs.place options.output ++ ·) := by
    rw [List.map_map]
    exact List.map_congr_left fun a ha => place_inBundle (inBundle_files hp hw ha) fs options.output
  rw [hplaces]
  exact (nodup_files hp hw hc text).map fun _ _ => List.append_cancel_left

/-- What a real run has written, and what its pruning leaves of it. -/
structure Delivered (fs fs' : FileSystem) (options : ExportOptions) (now : Timestamp) (p : Preparation) :
    Prop where
  settled : Settled fs options p
  wellFormed : fs.WellFormed
  written : ∃ mid, Written fs options.output (p.files (settledText fs options now)) mid ∧
    Export.PrunedAll options.output p.paths.reverse generatedNames mid.files fs'

namespace Delivered

theorem place_eq (h : Delivered fs fs' options now p) (q : Path) : fs'.place q = fs.place q := by
  obtain ⟨mid, hmid, hpruned⟩ := h.written
  rw [hpruned.place_eq, hmid.extends_files.place_eq]

theorem wellFormed_after (h : Delivered fs fs' options now p) : fs'.WellFormed := by
  obtain ⟨mid, hmid, hpruned⟩ := h.written
  exact hpruned.wellFormed (hmid.extends_files.wellFormed h.wellFormed)

/-- What is not a leftover below a directory that is pruned stays as it was written. -/
theorem fileAt_eq (h : Delivered fs fs' options now p) {l : Location}
    (hl : ∀ ms ∈ generatedNames, ∀ ns, ns ≠ [] → l = fs.place options.output ++ (ms ++ ns) →
      Sink.walkedName (ms ++ ns) ∈ p.paths) :
    fs'.fileAt l = overlay fs options.output (p.files (settledText fs options now)) l := by
  obtain ⟨mid, hmid, hpruned⟩ := h.written
  rw [hpruned.kept l, hmid.fileAt_eq]
  intro ms hms ns hns heq
  rw [hmid.extends_files.place_eq] at heq
  simpa using hl ms hms ns hns heq

/-- A leftover below a directory that is pruned is gone. -/
theorem fileAt_eq_none (h : Delivered fs fs' options now p) (hl : fs'.Leads options.output) {ms ns : List String}
    (hms : ms ∈ generatedNames) (hns : ns ≠ []) (hnew : Sink.walkedName (ms ++ ns) ∉ p.paths) :
    fs'.fileAt (fs.place options.output ++ (ms ++ ns)) = none := by
  obtain ⟨mid, hmid, hpruned⟩ := h.written
  rw [← hmid.extends_files.place_eq]
  exact hpruned.removed hl ms hms ns hns (by simpa using hnew)

/-- Pruning leaves nothing but what was written. -/
theorem overlay_eq (h : Delivered fs fs' options now p) {l : Location} {c : ByteArray}
    (hc : fs'.fileAt l = some c) :
    overlay fs options.output (p.files (settledText fs options now)) l = some c := by
  obtain ⟨mid, hmid, hpruned⟩ := h.written
  rw [← hmid.fileAt_eq]
  exact FileSystem.fileAt_eq_some_iff.2 (hpruned.node? l _ (FileSystem.fileAt_eq_some_iff.1 hc))

theorem fileAt_of_recognised (h : Delivered fs fs' options now p)
    (ha : a ∈ p.files (settledText fs options now)) (hr : p.Recognised a.1) :
    fs'.fileAt (fs.place (options.output.join a.1)) =
      overlay fs options.output (p.files (settledText fs options now)) (fs.place (options.output.join a.1)) := by
  apply h.fileAt_eq
  intro ms _ ns _ heq
  rw [place_inBundle (inBundle_files h.settled h.wellFormed ha)] at heq
  rw [← List.append_cancel_left heq]
  exact hr

theorem fileAt_of_unrecognised (h : Delivered fs fs' options now p)
    (ha : a ∈ p.files (settledText fs options now)) (hr : ¬p.Recognised a.1) (hl : fs'.Leads options.output) :
    fs'.fileAt (fs.place (options.output.join a.1)) = none := by
  obtain ⟨ms, hms, ns, hns, hnames⟩ :=
    generated_of_not_clean h.settled h.wellFormed ha fun hc => hr (recognised_of_clean ha hc)
  rw [place_inBundle (inBundle_files h.settled h.wellFormed ha), hnames]
  refine h.fileAt_eq_none hl hms hns ?_
  rwa [← hnames]

theorem fileAt_of_clean (h : Delivered fs fs' options now p) (hc : p.CleanPictures)
    (ha : a ∈ p.files (settledText fs options now)) :
    fs'.fileAt (fs.place (options.output.join a.1)) =
      overlay fs options.output (p.files (settledText fs options now)) (fs.place (options.output.join a.1)) :=
  h.fileAt_of_recognised ha (recognised_of_clean ha (clean_files h.settled h.wellFormed hc ha))

/-- With clean paths of pictures no artifact takes the place of another. -/
theorem overlay_of_clean (h : Delivered fs fs' options now p) (hc : p.CleanPictures)
    {before after : List Artifact} (hsplit : p.files (settledText fs options now) = before ++ a :: after) :
    overlay fs options.output (p.files (settledText fs options now)) (fs.place (options.output.join a.1)) =
      bytesPut fs options.output before a := by
  have hnodup := nodup_places h.settled h.wellFormed hc (settledText fs options now)
  rw [hsplit, List.map_append, List.map_cons, List.nodup_append, List.nodup_cons] at hnodup
  obtain ⟨-, ⟨hnew, -⟩, -⟩ := hnodup
  rw [hsplit]
  exact overlay_of_last fun b hb he => hnew (he ▸ List.mem_map_of_mem hb)

/-- Where pictures are apart the artifacts are written with the bytes from before the run. -/
theorem bytesPut_of_apart (h : Delivered fs fs' options now p) (hapart : Apart fs options p)
    {before after : List Artifact} (hsplit : p.files (settledText fs options now) = before ++ a :: after) :
    bytesPut fs options.output before a = a.2.bytesIn fs := by
  refine bytesPut_of_separate (hapart.separate h.settled (settledText fs options now)) ?_ ?_
  · simp [hsplit]
  · intro b hb
    simp [hsplit, hb]

theorem overlay_isSome (h : Delivered fs fs' options now p) (ha : a ∈ p.files (settledText fs options now)) :
    (overlay fs options.output (p.files (settledText fs options now))
      (fs.place (options.output.join a.1))).isSome :=
  StoryPress.overlay_isSome (fun _ hb => bytesIn_isSome h.settled h.wellFormed hb) (.inr ⟨a, ha, rfl⟩)

/-- The output is a directory: the script is below it. -/
theorem node?_output (h : Delivered fs fs' options now p) :
    fs'.node? (fs.place options.output) = some .directory := by
  have hscript : (Layout.script, Content.text p.master.script) ∈ p.files (settledText fs options now) := by
    simp [files, gameTree, stamped, under]
  have hfile := h.fileAt_of_recognised hscript (recognised_of_clean hscript clean_script.1)
  have hsome := h.overlay_isSome hscript
  rw [← hfile, place_inBundle clean_script.1.inBundle] at hsome
  obtain ⟨c, hc⟩ := Option.isSome_iff_exists.1 hsome
  exact h.wellFormed_after.node?_of_append clean_script.1.1 (FileSystem.fileAt_eq_some_iff.1 hc)

/-- A path of the output that does not go up leads there still. -/
theorem leads_after (h : Delivered fs fs' options now p) (hup : ".." ∉ options.output.segments) :
    fs'.Leads options.output := by
  refine FileSystem.leads_of_directory h.wellFormed_after hup ?_
  rw [h.place_eq]
  exact h.node?_output

/-- The manifest of the bundle is put after all else but its stamp, so it stays as it was written. -/
theorem fileAt_manifest (h : Delivered fs fs' options now p) :
    fs'.fileAt (fs.place (options.output.join exportManifest)) =
      some (settledText fs options now "" p.masterManifest).toUTF8 := by
  obtain ⟨hclean, hstamp, -⟩ := clean_manifests
  obtain ⟨hnames, hnamesStamp, -⟩ := names_manifests
  let text := settledText fs options now "" p.masterManifest
  let a : Artifact := (exportManifest, .text text)
  have hfiles : p.files (settledText fs options now) =
      (p.gameTree "" p.master ++ p.forks.flatMap (p.forkFiles (settledText fs options now)) ++
        [(Layout.labelManifest, .text p.labelManifest.pretty)]) ++
      a :: [(stamp exportManifest, .text (Stamp.ofBytes exportManifest text.toUTF8 p.inputs).text)] := rfl
  have hmem : a ∈ p.files (settledText fs options now) := by
    rw [hfiles]
    simp
  rw [h.fileAt_of_recognised hmem (recognised_of_clean hmem hclean), hfiles]
  refine overlay_of_last (a := a) fun b hb he => ?_
  obtain rfl := List.mem_singleton.1 hb
  rw [place_inBundle hclean.inBundle, place_inBundle hstamp.inBundle, hnames, hnamesStamp] at he
  exact absurd (List.append_cancel_left he) (by decide)

end Delivered

theorem delivered_of_run {store : Store} {reviewers : Reviewers BundleView} {r : ExportResult}
    (hw : fs.WellFormed) (hreal : options.dryRun = false)
    (h : Export.run fs store options reviewers now = (.ok r, fs')) : Delivered fs fs' options now r.prepared := by
  obtain ⟨hp, w', hrun, rfl, -⟩ := Export.runs_of_run h
  rw [hreal] at hrun
  obtain ⟨mid, hmid, -, hpruned⟩ := written_of_write (settled_of_run hp) hw hrun
  exact ⟨settled_of_run hp, hw, mid, hmid, hpruned⟩

/-- The text that an export gives for its manifest. -/
theorem manifest_eq_of_run {store : Store} {reviewers : Reviewers BundleView} {r : ExportResult}
    (hw : fs.WellFormed) (hreal : options.dryRun = false)
    (h : Export.run fs store options reviewers now = (.ok r, fs')) :
    r.manifest = settledText fs options now "" r.prepared.masterManifest := by
  obtain ⟨hp, w', hrun, -, -⟩ := Export.runs_of_run h
  rw [hreal] at hrun
  exact ((account_written (settled_of_run hp) hw).write (settled_of_run hp) (.start fs options.output) hrun).1

/-- It is what the export has written. -/
theorem manifest_of_run {store : Store} {reviewers : Reviewers BundleView} {r : ExportResult}
    (hw : fs.WellFormed) (hreal : options.dryRun = false)
    (h : Export.run fs store options reviewers now = (.ok r, fs')) :
    fs'.fileAt (fs.place (options.output.join exportManifest)) = some r.manifest.toUTF8 := by
  rw [(delivered_of_run hw hreal h).fileAt_manifest, manifest_eq_of_run hw hreal h]

end StoryPress.Preparation
