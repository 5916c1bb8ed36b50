import StoryPress.Proofs.Rerun
import StoryPress.Proofs.Swept

/-!
# Exports over earlier bundles

Two exports of the same documents into the same place, over whatever was there before. What they read lies beside the
place, so both settle the same; each artifact is put in its place, and what is left of an earlier bundle is pruned.

* `overlay_congr`: artifacts come to the same over different files, if their sources do;
* `Preparation.Delivered.fileAt_congr`: so does what is recognised below the directories that are pruned;
* `Preparation.Delivered.filesBelow_congr_iff`: two bundles differ there just in what is left over;
* `Preparation.noneEmpty_of_run`: an export leaves no empty directory there;
* `Preparation.same_bundle`: where both paths of the output still lead to their directory, both leave one bundle.
-/

namespace StoryPress

/-- Artifacts come to the same over different files, if their sources do and none of them is replaced. -/
theorem overlay_congr {fs fs' : FileSystem} {root : Path} {as : List Preparation.Artifact}
    (hplace : ∀ q, fs'.place q = fs.place q) (hs : Separate fs root as)
    (hbytes : ∀ a ∈ as, a.2.bytesIn fs' = a.2.bytesIn fs) {l : Location}
    (hl : ∃ a ∈ as, fs.place (root.join a.1) = l) : overlay fs' root as l = overlay fs root as l := by
  obtain ⟨before, a, after, rfl, rfl, hlast⟩ := exists_last_at hl
  have hmem : a ∈ before ++ a :: after := by simp
  have hsub : ∀ b ∈ before, b ∈ before ++ a :: after := fun b hb => by simp [hb]
  have hs' : Separate fs' root (before ++ a :: after) := by
    simpa only [Separate, hplace] using hs
  have hlast' : ∀ b ∈ after, fs'.place (root.join b.1) ≠ fs'.place (root.join a.1) := by
    simpa only [hplace] using hlast
  calc overlay fs' root (before ++ a :: after) (fs.place (root.join a.1))
      = overlay fs' root (before ++ a :: after) (fs'.place (root.join a.1)) := by rw [hplace]
    _ = bytesPut fs' root before a := overlay_of_last hlast'
    _ = a.2.bytesIn fs' := bytesPut_of_separate hs' hmem hsub
    _ = a.2.bytesIn fs := hbytes a hmem
    _ = bytesPut fs root before a := (bytesPut_of_separate hs hmem hsub).symm
    _ = overlay fs root (before ++ a :: after) (fs.place (root.join a.1)) := (overlay_of_last hlast).symm

namespace Preparation

open Layout

variable {fs fs' : FileSystem} {options : ExportOptions} {p : Preparation} {now : Timestamp}

/-- With a pinned time the manifests do not look at earlier ones. -/
theorem settledText_of_pinned {t : Timestamp} (hpin : options.generatedAt = some t) (fs fs' : FileSystem)
    (now now' : Timestamp) : settledText fs' options now' = settledText fs options now := by
  funext dir m
  simp only [settledText, ExportManifest.timeFor, hpin]

/-- No picture in use lies in the output. -/
theorem source_beside (hp : Settled fs options p) (hw : fs.WellFormed) (hout : Outside fs options)
    (hread : p.compiled.ReadsBeside fs (fs.place options.output)) {u : AssetUsage}
    (hu : u ∈ p.compiled.catalog.usages) : ¬fs.place options.output <+: fs.place u.source := by
  have horigin := hp.origin hw hu
  rw [horigin.source_eq]
  by_cases habs : Path.startsAtRoot u.relative = true
  · obtain ⟨r, hr, hru⟩ := AssetCatalog.mem_usages hu
    rw [Path.join_of_startsAtRoot habs]
    exact (hread r hr u hru habs).1
  · rw [place_inBundle ⟨by simpa using habs, horigin.never_up⟩]
    exact hout.beside _

theorem apart_of_beside (hp : Settled fs options p) (hw : fs.WellFormed) (hout : Outside fs options)
    (hread : p.compiled.ReadsBeside fs (fs.place options.output)) : Apart fs options p := by
  intro u hu path hpath heq
  obtain ⟨a, ha, rfl⟩ := List.mem_map.1 hpath
  apply source_beside hp hw hout hread hu
  rw [heq, place_inBundle (inBundle_files hp hw ha)]
  exact List.prefix_append _ _

/-- What is copied has the same content among files that differ in the output at most. -/
theorem bytesIn_beside (hb : fs.Beside (fs.place options.output) fs') (hp : Settled fs options p)
    (hout : Outside fs options) (hread : p.compiled.ReadsBeside fs (fs.place options.output))
    {text : String → ExportManifest → String} {a : Artifact} (ha : a ∈ p.files text) :
    a.2.bytesIn fs' = a.2.bytesIn fs := by
  obtain ⟨dir, -, u, hu, rfl⟩ | ⟨-, s, hs⟩ := mem_files hp ha
  · simp only [Content.bytesIn, hb.place_eq]
    exact hb.fileAt_eq _ (source_beside hp hb.before hout hread hu)
  · rw [hs]
    rfl

namespace Delivered

variable {fs₁ fs₂ fs₁' fs₂' : FileSystem} {now₁ now₂ : Timestamp}

section
variable (h₁ : Delivered fs₁ fs₁' options now₁ p) (h₂ : Delivered fs₂ fs₂' options now₂ p)
  (hb : fs₁.Beside (fs₁.place options.output) fs₂) (hout : Outside fs₁ options)
  (hread : p.compiled.ReadsBeside fs₁ (fs₁.place options.output)) {t : Timestamp}
  (hpin : options.generatedAt = some t)
include h₁ h₂ hb hout hread hpin

/-- What is recognised below the directories that are pruned is the same in both bundles: no file of an earlier bundle
takes the name of an artifact and stays. -/
theorem fileAt_congr (hplain₁ : PlainBelow fs₁ options) (hplain₂ : PlainBelow fs₂ options) {ns : List String}
    (hr : Sink.walkedName ns ∈ p.paths) :
    fs₂'.fileAt (fs₁.place options.output ++ ns) = fs₁'.fileAt (fs₁.place options.output ++ ns) := by
  have htext := settledText_of_pinned hpin fs₁ fs₂ now₁ now₂
  have hkept₁ := h₁.fileAt_eq (l := fs₁.place options.output ++ ns) fun ms _ ks _ heq =>
    List.append_cancel_left heq ▸ hr
  have hkept₂ := h₂.fileAt_eq (l := fs₂.place options.output ++ ns) fun ms _ ks _ heq =>
    List.append_cancel_left heq ▸ hr
  rw [htext, hb.place_eq] at hkept₂
  rw [hkept₁, hkept₂]
  by_cases hplace : ∃ a ∈ p.files (settledText fs₁ options now₁),
      fs₁.place (options.output.join a.1) = fs₁.place options.output ++ ns
  · refine overlay_congr hb.place_eq ?_ (fun b => bytesIn_beside hb h₁.settled hout hread) hplace
    exact (apart_of_beside h₁.settled h₁.wellFormed hout hread).separate h₁.settled _
  · -- a file from before with plain names would have the path of an artifact, and its place
    have hnone {fs : FileSystem} (hw : fs.WellFormed) (hsame : ∀ q, fs.place q = fs₁.place q)
        (hplain : PlainBelow fs options) : fs.fileAt (fs₁.place options.output ++ ns) = none := by
      rw [← Option.not_isSome_iff_eq_none, ← hsame]
      intro hfile
      obtain ⟨a, ha, heq⟩ := exists_artifact_at hw hplain hfile hr (settledText fs₁ options now₁)
      exact hplace ⟨a, ha, by rwa [hsame, hsame] at heq⟩
    rw [overlay_of_ne fun a ha he => hplace ⟨a, ha, he⟩,
      overlay_of_ne fun a ha he => hplace ⟨a, ha, by rwa [← hb.place_eq]⟩,
      hnone h₁.wellFormed (fun _ => rfl) hplain₁, hnone h₂.wellFormed hb.place_eq hplain₂]

/-- Below a directory the bundles have the same files just if what is left over there is the same. -/
theorem filesBelow_congr_iff (hplain₁ : PlainBelow fs₁ options) (hplain₂ : PlainBelow fs₂ options) (ms : List String) :
    fs₂'.filesBelow (fs₁.place options.output ++ ms) = fs₁'.filesBelow (fs₁.place options.output ++ ms) ↔
      ∀ ns, ns ≠ [] → Sink.walkedName (ms ++ ns) ∉ p.paths →
        fs₂'.fileAt (fs₁.place options.output ++ (ms ++ ns)) =
          fs₁'.fileAt (fs₁.place options.output ++ (ms ++ ns)) := by
  constructor
  · intro heq ns hne _
    ext c
    have hmem := @FileSystem.mem_filesBelow_iff fs₁' (fs₁.place options.output ++ ms) ns c
    rw [← heq, FileSystem.mem_filesBelow_iff] at hmem
    simpa [hne] using hmem
  · intro hleft
    refine FileSystem.filesBelow_congr fun ns hne => ?_
    rw [List.append_assoc]
    by_cases hr : Sink.walkedName (ms ++ ns) ∈ p.paths
    · exact h₁.fileAt_congr h₂ hb hout hread hpin hplain₁ hplain₂ hr
    · exact hleft ns hne hr

end

end Delivered

theorem pairwise_generatedNames : generatedNames.Pairwise fun ms ms' => ¬ms <+: ms' ∧ ¬ms' <+: ms := by decide

/-- An export leaves no empty directory below those that it prunes, where the path of the output still leads there. -/
theorem noneEmpty_of_run {store : Store} {reviewers : Reviewers BundleView} {r : ExportResult}
    (hw : fs.WellFormed) (hreal : options.dryRun = false)
    (h : Export.run fs store options reviewers now = (.ok r, fs')) (hl : fs'.Leads options.output) :
    ∀ ms ∈ generatedNames, fs'.NoneEmpty (fs.place options.output ++ ms) := by
  obtain ⟨hp, w', hrun, rfl, -⟩ := Export.runs_of_run h
  have hsettled := settled_of_run hp
  rw [hreal] at hrun
  obtain ⟨-, mid, hmid, hprune⟩ := (account_written hsettled hw).write hsettled (.start fs options.output) hrun
  rw [generated_eq] at hprune
  have hempty := Export.noneEmpty_of_pruneAll isName_generatedNames (hmid.extends_files.wellFormed hw) hmid.real
    hprune pairwise_generatedNames (hmid.root_eq ▸ hl)
  rwa [hmid.root_eq, hmid.extends_files.place_eq] at hempty

/-- The files of a bundle that are not below a directory that is pruned. -/
def fixedFiles : List String :=
  [script, stamp script, exportManifest, stamp exportManifest, Layout.labelManifest]

theorem mem_paths_of_fixed {path : String} (h : path ∈ fixedFiles) : path ∈ p.paths ∧ Clean path := by
  have hclean : ∀ path ∈ fixedFiles, Clean path := by
    simp only [fixedFiles, List.forall_mem_cons]
    exact ⟨clean_script.1, clean_script.2, clean_manifests.1, clean_manifests.2.1, clean_manifests.2.2, by simp⟩
  refine ⟨?_, hclean path h⟩
  simp only [fixedFiles, List.mem_cons, List.not_mem_nil, or_false] at h
  simp only [paths, files, gameTree, manifestFiles, stamped, under, List.map_append, List.mem_append, List.map_cons,
    List.map_nil, List.mem_cons]
  rcases h with rfl | rfl | rfl | rfl | rfl <;> simp

theorem run_eq_ok_checkOutput {store : Store} {reviewers : Reviewers BundleView}
    (h : run fs store options reviewers = .ok p) : checkOutput fs options = .ok () :=
  (run_eq_ok_iff.1 h).usable

/-- Exports with a pinned time over two earlier bundles leave the same scripts and manifests. Where the path of the
output still leads to its directory afterwards, both leave the same files below the directories that are pruned, and
no empty directory there; in general those are the same exactly if nothing is left over in one but in the other. -/
theorem same_bundle {fs₁ fs₂ fs₁' fs₂' : FileSystem} {store : Store} {reviewers : Reviewers BundleView}
    {now₁ now₂ t : Timestamp} {r₁ r₂ : ExportResult} (hb : fs₁.Beside (fs₁.place options.output) fs₂)
    (hplain₁ : PlainBelow fs₁ options) (hplain₂ : PlainBelow fs₂ options) (hreal : options.dryRun = false)
    (hpin : options.generatedAt = some t) (h₁ : Export.run fs₁ store options reviewers now₁ = (.ok r₁, fs₁'))
    (h₂ : Export.run fs₂ store options reviewers now₂ = (.ok r₂, fs₂'))
    (hu : Undisturbed fs₁ fs₂ options r₁.prepared)
    (hread : r₁.prepared.compiled.ReadsBeside fs₁ (fs₁.place options.output)) :
    (∀ path ∈ fixedFiles, ∃ c, fs₁'.fileAt (fs₁.place options.output ++ names path) = some c ∧
      fs₂'.fileAt (fs₁.place options.output ++ names path) = some c) ∧
    (∀ ms ∈ generatedNames,
      fs₂'.filesBelow (fs₁.place options.output ++ ms) = fs₁'.filesBelow (fs₁.place options.output ++ ms) ↔
        ∀ ns, ns ≠ [] → Sink.walkedName (ms ++ ns) ∉ r₁.prepared.paths →
          fs₂'.fileAt (fs₁.place options.output ++ (ms ++ ns)) =
            fs₁'.fileAt (fs₁.place options.output ++ (ms ++ ns))) ∧
    (fs₁'.Leads options.output → fs₂'.Leads options.output → ∀ ms ∈ generatedNames,
      fs₂'.filesBelow (fs₁.place options.output ++ ms) = fs₁'.filesBelow (fs₁.place options.output ++ ms) ∧
        fs₁'.NoneEmpty (fs₁.place options.output ++ ms) ∧ fs₂'.NoneEmpty (fs₁.place options.output ++ ms)) ∧
    (".." ∉ options.output.segments → fs₁'.Leads options.output ∧ fs₂'.Leads options.output) := by
  have hd₁ := delivered_of_run hb.before hreal h₁
  have hd₂ := delivered_of_run hb.after hreal h₂
  obtain ⟨hp₁, -⟩ := Export.runs_of_run h₁
  obtain ⟨hp₂, -⟩ := Export.runs_of_run h₂
  have hagain : run fs₂ store options reviewers = .ok r₁.prepared :=
    @run_again _ _ options _ _ _ options.dryRun hb hu hread hp₁ (run_eq_ok_checkOutput hp₂)
  have hsame : r₂.prepared = r₁.prepared := Except.ok.inj (hp₂.symm.trans hagain)
  rw [hsame] at hd₂
  have hcongr {ns : List String} (hr : Sink.walkedName ns ∈ r₁.prepared.paths) :=
    hd₁.fileAt_congr hd₂ hb hu.outside hread hpin hplain₁ hplain₂ hr
  have hfiles := hd₁.filesBelow_congr_iff hd₂ hb hu.outside hread hpin hplain₁ hplain₂
  refine ⟨fun path hpath => ?_, fun ms _ => hfiles ms, fun hl₁ hl₂ ms hms => ⟨?_, ?_, ?_⟩, fun hup => ?_⟩
  · obtain ⟨hmem, hclean⟩ := mem_paths_of_fixed (p := r₁.prepared) hpath
    obtain ⟨a, ha, rfl⟩ := List.mem_map.1 (paths_files (settledText fs₁ options now₁) ▸ hmem)
    have hsome := hd₁.overlay_isSome ha
    rw [← hd₁.fileAt_of_recognised ha (recognised_of_clean ha hclean), place_inBundle hclean.inBundle] at hsome
    obtain ⟨c, hc⟩ := Option.isSome_iff_exists.1 hsome
    exact ⟨c, hc, (hcongr (hclean.walkedName.symm ▸ hmem)).trans hc⟩
  · refine (hfiles ms).2 fun ns hne hr => ?_
    rw [hd₁.fileAt_eq_none hl₁ hms hne hr, ← hb.place_eq, hd₂.fileAt_eq_none hl₂ hms hne hr]
  · exact noneEmpty_of_run hb.before hreal h₁ hl₁ ms hms
  · rw [← hb.place_eq]
    exact noneEmpty_of_run hb.after hreal h₂ hl₂ ms hms
  · exact ⟨hd₁.leads_after hup, hd₂.leads_after hup⟩

/-- A bundle with a picture that is left over. -/
def pictureFiles : FileSystem where
  nodes := .ofList [(["out"], .directory), (["out", "game"], .directory), (["out", "game", "images"], .directory),
    (["out", "game", "images", "old.png"], .file "old".toUTF8)]

theorem beside_of_entries {site : Location} (hw : fs.WellFormed) (hw' : fs'.WellFormed) (hhere : fs'.here = fs.here)
    (h : ∀ e ∈ fs.nodes.entries, site <+: e.1) (h' : ∀ e ∈ fs'.nodes.entries, site <+: e.1) :
    fs.Beside site fs' := by
  refine ⟨hw, hw', hhere, fun l hl => ?_⟩
  have hnone {fs : FileSystem} (h : ∀ e ∈ fs.nodes.entries, site <+: e.1) : fs.fileAt l = none := by
    cases hc : fs.fileAt l with
    | none => rfl
    | some c =>
      have hne : l ≠ [] := by
        rintro rfl
        simp [FileSystem.fileAt, FileSystem.node?] at hc
      exact absurd (h _ (FileSystem.mem_entries_of_node? hne (FileSystem.fileAt_eq_some_iff.1 hc))) hl
  rw [hnone h, hnone h']

/-- The output behind a directory that is pruned, at a pinned time. -/
def pinnedOptions : ExportOptions := { prunedOptions with generatedAt := some default }

set_option maxRecDepth 100000 in
/-- Pruning removes the directory through which the path of the output goes, and the picture stays that is left over in
one bundle. -/
theorem not_same_bundle_through_pruned_directory :
    ({} : FileSystem).Beside (({} : FileSystem).place pinnedOptions.output) pictureFiles ∧
    PlainBelow {} pinnedOptions ∧ PlainBelow pictureFiles pinnedOptions ∧ pinnedOptions.dryRun = false ∧
    pinnedOptions.force = true ∧ pinnedOptions.generatedAt = some default ∧
    ∃ r₁ r₂ fs₁' fs₂', Export.run {} (.memory plainShelf) pinnedOptions {} default = (.ok r₁, fs₁') ∧
      Export.run pictureFiles (.memory plainShelf) pinnedOptions {} default = (.ok r₂, fs₂') ∧
      Undisturbed {} pictureFiles pinnedOptions r₁.prepared ∧
      r₁.prepared.compiled.ReadsBeside {} (({} : FileSystem).place pinnedOptions.output) ∧
      (∀ path ∈ fixedFiles, ∃ c,
        fs₁'.fileAt (({} : FileSystem).place pinnedOptions.output ++ names path) = some c ∧
        fs₂'.fileAt (({} : FileSystem).place pinnedOptions.output ++ names path) = some c) ∧
      fs₂'.filesBelow ["out", "game", "images"] ≠ fs₁'.filesBelow ["out", "game", "images"] := by
  have hempty : ({} : FileSystem).WellFormed := by decide +kernel
  have hpicture : pictureFiles.WellFormed := by decide +kernel
  have hb : ({} : FileSystem).Beside (({} : FileSystem).place pinnedOptions.output) pictureFiles :=
    beside_of_entries hempty hpicture rfl (by decide) (by decide +kernel)
  have hplain₁ : PlainBelow {} pinnedOptions := plainBelow_of_entries (by decide)
  have hplain₂ : PlainBelow pictureFiles pinnedOptions := plainBelow_of_entries (by decide +kernel)
  have hover : (match Export.run pictureFiles (.memory plainShelf) pinnedOptions {} default with
      | (.ok _, fs₂') => (fs₂'.fileAt ["out", "game", "images", "old.png"]).isSome
      | (.error _, _) => false) = true := by
    decide +kernel
  have hfresh : (match Export.run {} (.memory plainShelf) pinnedOptions {} default with
      | (.ok r₁, fs₁') =>
        r₁.prepared.compiled.catalog.registrations.isEmpty && r₁.prepared.docs.sources.isEmpty &&
          (r₁.prepared.docs.scenes.all fun s => (SceneNode.ofScene s).all fun n => n.picture?.isNone) &&
          (fs₁'.fileAt ["out", "game", "images", "old.png"]).isNone
      | (.error _, _) => false) = true := by
    decide +kernel
  split at hover
  · next r₂ fs₂' hrun₂ =>
    split at hfresh
    · next r₁ fs₁' hrun₁ =>
      simp only [Bool.and_eq_true, List.isEmpty_iff, List.all_eq_true, Option.isNone_iff_eq_none] at hfresh
      obtain ⟨⟨⟨hregistrations, hsources⟩, hpictures⟩, hgone⟩ := hfresh
      have hu : Undisturbed {} pictureFiles pinnedOptions r₁.prepared := by
        refine undisturbed_of_never_up ⟨by decide, by decide⟩ (by decide) ?_ ?_
        · intro q hq
          rw [hsources] at hq
          cases hq
        · intro s hs node hnode kind reference hpicture
          rw [hpictures s hs node hnode] at hpicture
          cases hpicture
      have hread : r₁.prepared.compiled.ReadsBeside {} (({} : FileSystem).place pinnedOptions.output) := by
        intro r hr
        rw [hregistrations] at hr
        cases hr
      obtain ⟨hfixed, -⟩ := same_bundle hb hplain₁ hplain₂ rfl rfl hrun₁ hrun₂ hu hread
      refine ⟨hb, hplain₁, hplain₂, rfl, rfl, rfl, r₁, r₂, fs₁', fs₂', hrun₁, hrun₂, hu, hread, hfixed, fun heq => ?_⟩
      obtain ⟨c, hc⟩ := Option.isSome_iff_exists.1 hover
      have hmem : (["old.png"], c) ∈ fs₂'.filesBelow ["out", "game", "images"] :=
        FileSystem.mem_filesBelow_iff.2 ⟨by decide, hc⟩
      rw [heq, FileSystem.mem_filesBelow_iff] at hmem
      rw [show fs₁'.fileAt (["out", "game", "images"] ++ ["old.png"]) = none from hgone] at hmem
      cases hmem.2
    · cases hfresh
  · cases hover

end Preparation

end StoryPress
