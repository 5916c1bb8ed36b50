import StoryPress.Proofs.LateRefusals
import StoryPress.Proofs.Licences
import StoryPress.Proofs.PackagedForks

/-!
# Stamps after runs

A stamp is made from bytes in memory before a run is over. It is true when the run ends: of the files that a run puts
later none takes the place of a stamped file, unless the stamp is put anew too.

* `Stamped`: a file lies beside a stamp that is true of it;
* `Preparation.Delivered.stampedBundle`: an export leaves scripts and manifests with their stamps, in each tree;
* `Package.Seals`: what archives that are made one after the other leave; `Package.seals_of_run`: those of a run;
* `stamps_attest`: both.
-/

namespace StoryPress

open Layout

/-- A file and its stamp lie in one directory, and the stamp is true of what the file holds. -/
def Stamped (fs : FileSystem) (l : Location) (file artifact : String) (inputs : List StampInput) : Prop :=
  ∃ content held, fs.fileAt (l ++ [file]) = some content ∧ fs.fileAt (l ++ [stamp file]) = some held ∧
    Stamp.AttestsFrom held artifact content inputs

theorem Stamped.congr {fs fs' : FileSystem} {l : Location} {file artifact : String} {inputs : List StampInput}
    (h : Stamped fs l file artifact inputs) (hfile : fs'.fileAt (l ++ [file]) = fs.fileAt (l ++ [file]))
    (hstamp : fs'.fileAt (l ++ [stamp file]) = fs.fileAt (l ++ [stamp file])) :
    Stamped fs' l file artifact inputs := by
  unfold Stamped
  rwa [hfile, hstamp]

/-- What ends otherwise is no stamp. -/
theorem stamp_ne_append {e : String}
    (h : ¬(e.toList <:+ ".provenance.json".toList ∨ ".provenance.json".toList <:+ e.toList)) (path x : String) :
    stamp path ≠ x ++ e := by
  intro heq
  have hlist : (stamp path).toList = x.toList ++ e.toList := by rw [heq, String.toList_append]
  have hend : e.toList <:+ (stamp path).toList := by
    rw [hlist]
    exact List.suffix_append _ _
  have hstamp : ".provenance.json".toList <:+ (stamp path).toList := by
    rw [stamp, String.toList_append]
    exact List.suffix_append _ _
  exact h (List.suffix_or_suffix_of_suffix hend hstamp)

/-- A clean path whose last name is that of a stamp is the path of a stamp. -/
theorem Layout.Clean.eq_stamp {path : String} (h : Clean path) {ns : List String} {file : String}
    (hnames : names path = ns ++ [stamp file]) : ∃ artifact, path = stamp artifact := by
  have hpath := h.2.2
  rw [hnames] at hpath
  by_cases hns : ns = []
  · subst hns
    exact ⟨file, by simpa [Text.joinWith] using hpath.symm⟩
  · rw [Text.joinWith_append hns (List.cons_ne_nil _ _)] at hpath
    refine ⟨Text.joinWith "/" ns ++ "/" ++ file, ?_⟩
    rw [← hpath, stamp]
    simp [Text.joinWith, stamp, String.append_assoc]

/-! ## Bundles -/

namespace Preparation

variable {fs fs' : FileSystem} {options : ExportOptions} {p : Preparation} {now : Timestamp} {a b : Artifact}

theorem under_eq_append (dir rel : String) : ∃ front, under dir rel = front ++ rel := by
  unfold under
  split
  · exact ⟨"", by simp⟩
  · exact ⟨_, rfl⟩

section
variable (hp : Settled fs options p) {text : String → ExportManifest → String} {t : Tree} (ht : t ∈ p.trees options)
include hp ht

theorem mem_files_of_stamped (ha : a ∈ t.stamped p (text t.dir t.manifest)) : a ∈ p.files text := by
  refine mem_files_of_tree hp ht ?_
  rcases List.mem_append.1 ha with ha | ha
  · exact List.mem_append_left _ (List.mem_append_right _ ha)
  · exact List.mem_append_right _ ha

/-- Nothing else is put where the stamped files of a tree and their stamps are: pictures and modules lie in directories
of their own. -/
theorem eq_of_names_stamped (ha : a ∈ t.stamped p (text t.dir t.manifest)) (hb : b ∈ p.files text)
    (h : names b.1 = names a.1) : b = a := by
  obtain ⟨rel, hrel, hnames⟩ := names_of_mem_stamped ha
  obtain ⟨hforks, himages, hscenes, hlabels⟩ := stampedNames_apart rel hrel
  rw [hnames] at h
  rcases names_of_mem_files hp hb with hb | ⟨t', ht', rel', hrel', hhead, hcases⟩
  · rw [hb] at h
    rcases names_dir hp ht with hd | ⟨slug, hd⟩
    · rw [hd] at h
      exact absurd h.symm hlabels
    · rw [hd] at h
      exact absurd (List.cons.inj h).1 (by decide)
  · obtain ⟨rfl, rfl⟩ := eq_of_names hp ht ht' hforks hhead (hrel'.symm.trans h)
    rcases hcases with ⟨u, -, rfl⟩ | ⟨label, rfl⟩ | ⟨-, hb⟩
    · exact absurd rfl himages
    · exact absurd rfl hscenes
    · have hnodup : ((t'.stamped p (text t'.dir t'.manifest)).map fun a => names a.1).Nodup := by
        rw [names_stamped]
        exact List.Nodup.map (fun _ _ => List.append_cancel_left) (by decide)
      exact List.inj_on_of_nodup_map hnodup hb ha (h.trans hnames.symm)

end

/-- All stamps of a bundle are those of the scripts and manifests of its trees. -/
theorem tree_of_stamp (hp : Settled fs options p) {text : String → ExportManifest → String} {path s : String}
    (h : (stamp path, Content.text s) ∈ p.files text) :
    ∃ t ∈ p.trees options, ∃ rel ∈ [Layout.script, exportManifest], path = under t.dir rel := by
  have hother {dir rel : String} (hrel : ¬(rel.toList <:+ ".provenance.json".toList ∨
      ".provenance.json".toList <:+ rel.toList)) : stamp path ≠ under dir rel := by
    obtain ⟨front, hfront⟩ := under_eq_append dir rel
    rw [hfront]
    exact stamp_ne_append hrel path front
  rcases tree_of_mem_files hp h with hlabels | ⟨t, ht, h | h⟩
  · exact absurd (hlabels.trans (String.empty_append (s := Layout.labelManifest)).symm)
      (stamp_ne_append (by decide) path "")
  · simp only [Tree.game, gameTree, Preparation.stamped, List.mem_append, List.mem_map, List.mem_cons,
      List.not_mem_nil, or_false, Prod.mk.injEq, reduceCtorEq, and_false, exists_false, false_or] at h
    rcases h with ⟨m, hm, hpath, -⟩ | ⟨hpath, -⟩ | ⟨hpath, -⟩
    · have hs := scripted_tree hp ht
      obtain ⟨front, hfront⟩ := under_eq_append t.dir m.path
      rw [hfront, hs.path_eq m hm, sceneModule_eq, moduleName, ← String.append_assoc, ← String.append_assoc,
        ← String.append_assoc] at hpath
      exact absurd hpath.symm (stamp_ne_append (by decide) path _)
    · exact absurd hpath (hother (by decide))
    · exact ⟨t, ht, Layout.script, by simp, (String.append_left_inj _).1 hpath⟩
  · simp only [manifestFiles, Preparation.stamped, List.mem_cons, List.not_mem_nil, or_false, Prod.mk.injEq] at h
    rcases h with ⟨hpath, -⟩ | ⟨hpath, -⟩
    · exact absurd hpath (hother (by decide))
    · exact ⟨t, ht, exportManifest, by simp, (String.append_left_inj _).1 hpath⟩

/-- What an export leaves of stamps. Those of the script and the manifest of each tree are true of the files beside
them, and what else has changed under the name of a stamp is the copy of a picture. -/
structure StampedBundle (fs fs' : FileSystem) (options : ExportOptions) (p : Preparation) : Prop where
  stamped : ∀ t ∈ p.trees options, ∀ rel ∈ [Layout.script, exportManifest], ∃ l file,
    fs'.place (options.output.join (under t.dir rel)) = l ++ [file] ∧
    fs'.place (options.output.join (stamp (under t.dir rel))) = l ++ [stamp file] ∧ Stamped fs' l file rel p.inputs
  told : ∀ l file content, fs'.fileAt (l ++ [stamp file]) = some content →
    fs.fileAt (l ++ [stamp file]) ≠ some content →
      (∃ t ∈ p.trees options, ∃ rel ∈ [Layout.script, exportManifest],
        fs.place (options.output.join (stamp (under t.dir rel))) = l ++ [stamp file]) ∨
      ∃ dir, IsTree dir ∧ ∃ u ∈ p.compiled.catalog.usages, fs.place (options.output.join (under dir u.output)) = l ++ [stamp file]

namespace Delivered

section
variable (h : Delivered fs fs' options now p) {t : Tree} (ht : t ∈ p.trees options)
include h ht

/-- The stamped files of a tree, and their stamps, are there as they were written. -/
theorem fileAt_stamped {path s : String}
    (ha : (path, Content.text s) ∈ t.stamped p (settledText fs options now t.dir t.manifest)) :
    fs'.fileAt (fs'.place (options.output.join path)) = some s.toUTF8 := by
  have hmem := mem_files_of_stamped h.settled ht ha
  have hclean : Clean path := by
    rcases mem_files h.settled hmem with ⟨_, -, u, -, heq⟩ | ⟨hclean, -⟩
    · cases (Prod.mk.inj heq).2
    · exact hclean
  have hthere : ∃ b ∈ p.files (settledText fs options now),
      fs.place (options.output.join b.1) = fs.place (options.output.join path) := ⟨_, hmem, rfl⟩
  obtain ⟨before, b, after, hsplit, hb, hlast⟩ := exists_last_at hthere
  have hbmem : b ∈ p.files (settledText fs options now) := by simp [hsplit]
  have hb' : b = (path, Content.text s) := by
    refine eq_of_names_stamped h.settled ht ha hbmem ?_
    have hplace := hb
    rw [place_inBundle (inBundle_files h.settled h.wellFormed hbmem), place_inBundle hclean.inBundle] at hplace
    exact List.append_cancel_left hplace
  rw [← hb] at hlast
  rw [h.place_eq, h.fileAt_of_recognised hmem (recognised_of_clean hmem hclean), ← hb, hsplit,
    overlay_of_last hlast, hb', bytesPut, Content.putAt]

/-- A file of a tree and its stamp that are there as they were written. -/
theorem stamped_of_written {rel text : String} {dir : List String} {file : String}
    (hwritten : ∀ a ∈ p.stamped (under t.dir rel) rel text,
      a ∈ t.stamped p (settledText fs options now t.dir t.manifest))
    (hnames : names rel = dir ++ [file]) (hstamp : names (stamp rel) = dir ++ [stamp file]) :
    ∃ l file, fs'.place (options.output.join (under t.dir rel)) = l ++ [file] ∧
      fs'.place (options.output.join (stamp (under t.dir rel))) = l ++ [stamp file] ∧
      Stamped fs' l file rel p.inputs := by
  have hmem (a : Artifact) (ha : a ∈ p.stamped (under t.dir rel) rel text) : InBundle a.1 :=
    inBundle_files h.settled h.wellFormed (mem_files_of_stamped h.settled ht (hwritten a ha))
  have hplace : fs'.place (options.output.join (under t.dir rel)) =
      (fs'.place options.output ++ names t.dir ++ dir) ++ [file] := by
    rw [place_inBundle (hmem _ (.head _)), names_under, hnames]
    simp only [List.append_assoc]
  have hplace' : fs'.place (options.output.join (stamp (under t.dir rel))) =
      (fs'.place options.output ++ names t.dir ++ dir) ++ [stamp file] := by
    rw [place_inBundle (hmem _ (.tail _ (.head _))), stamp_under, names_under, hstamp]
    simp only [List.append_assoc]
  refine ⟨_, file, hplace, hplace', text.toUTF8, _, ?_, ?_, Stamp.attestsFrom_ofBytes rel text.toUTF8 p.inputs⟩
  · rw [← hplace]
    exact h.fileAt_stamped ht (hwritten _ (.head _))
  · rw [← hplace']
    exact h.fileAt_stamped ht (hwritten _ (.tail _ (.head _)))

end

/-- What has changed under the name of a stamp is that of a script or of a manifest, or the copy of a picture. -/
theorem tree_of_changed (h : Delivered fs fs' options now p) {l : Location} {file : String} {content : ByteArray}
    (hcontent : fs'.fileAt (l ++ [stamp file]) = some content)
    (hchanged : fs.fileAt (l ++ [stamp file]) ≠ some content) :
    (∃ t ∈ p.trees options, ∃ rel ∈ [Layout.script, exportManifest],
      fs.place (options.output.join (stamp (under t.dir rel))) = l ++ [stamp file]) ∨
    ∃ dir, IsTree dir ∧ ∃ u ∈ p.compiled.catalog.usages,
      fs.place (options.output.join (under dir u.output)) = l ++ [stamp file] := by
  obtain ⟨a, ha, hl⟩ : ∃ a ∈ p.files (settledText fs options now),
      fs.place (options.output.join a.1) = l ++ [stamp file] := by
    by_contra hno
    have hold := h.overlay_eq hcontent
    rw [overlay_of_ne fun a ha heq => hno ⟨a, ha, heq⟩] at hold
    exact hchanged hold
  rcases mem_files h.settled ha with ⟨dir, hd, u, hu, rfl⟩ | ⟨hclean, s, hs⟩
  · exact .inr ⟨dir, hd, u, hu, hl⟩
  · obtain ⟨ns, n, hnames⟩ : ∃ ns n, names a.1 = ns ++ [n] :=
      ⟨_, _, (List.dropLast_append_getLast hclean.1).symm⟩
    have hlast := hl
    rw [place_inBundle hclean.inBundle, hnames, ← List.append_assoc] at hlast
    obtain rfl := List.singleton_inj.1 (List.append_inj' hlast rfl).2
    obtain ⟨path, hpath⟩ := hclean.eq_stamp hnames
    have hmem : (stamp path, Content.text s) ∈ p.files (settledText fs options now) := by
      rw [← hpath, ← hs]
      exact ha
    obtain ⟨t, ht, rel, hrel, rfl⟩ := tree_of_stamp h.settled hmem
    exact .inl ⟨t, ht, rel, hrel, by rw [← hpath, hl]⟩

theorem stampedBundle (h : Delivered fs fs' options now p) : StampedBundle fs fs' options p := by
  refine ⟨fun t ht rel hrel => ?_, fun l file content => h.tree_of_changed⟩
  simp only [List.mem_cons, List.not_mem_nil, or_false] at hrel
  rcases hrel with rfl | rfl
  · exact h.stamped_of_written ht (fun a ha => List.mem_append_left _ ha)
      (show names Layout.script = [gameDir] ++ ["script.rpy"] from names_script.1) names_script.2
  · exact h.stamped_of_written ht (fun a ha => List.mem_append_right _ ha)
      (show names exportManifest = [] ++ [exportManifest] from names_manifests.1) names_manifests.2.1

end Delivered

end Preparation

/-! ## Archives -/

namespace Package

variable {fs mid fs' : FileSystem} {o : PackageOptions} {shared : Shared} {s : Source} {t : CheckedTarget} {p : Parts}
  {r : PackageResult} {rs : List PackageResult} {w w' : Workbench} {l : Location} {last last' : String}

/-- No name ends in two of the endings. -/
theorem eq_of_append_ending {e e' : String} (he : e ∈ endings) (he' : e' ∈ endings) (h : last ++ e = last' ++ e') :
    last = last' ∧ e = e' := by
  have hapart : ∀ e ∈ endings, ∀ e' ∈ endings, e.toList <:+ e'.toList → e = e' := by decide
  have hlist : last.toList ++ e.toList = last'.toList ++ e'.toList := by
    rw [← String.toList_append, ← String.toList_append, h]
  have hsame : e = e' := by
    have hend : e.toList <:+ last'.toList ++ e'.toList := hlist ▸ List.suffix_append _ _
    rcases List.suffix_or_suffix_of_suffix hend (List.suffix_append _ _) with hsub | hsub
    · exact hapart e he e' he' hsub
    · exact (hapart e' he' e he hsub).symm
  rw [hsame] at h
  exact ⟨(String.append_left_inj e').1 h, hsame⟩

/-- Of the files of an archive only the stamps end like one. -/
theorem ending_of_stamp {e file : String} (he : e ∈ endings) (h : stamp file = last ++ e) :
    e = stamp ".publish_manifest.json" ∨ e = stamp ".zip" := by
  have hother : ∀ e ∈ endings, (e.toList <:+ ".provenance.json".toList ∨ ".provenance.json".toList <:+ e.toList) →
      e = stamp ".publish_manifest.json" ∨ e = stamp ".zip" := by decide
  by_contra hno
  exact stamp_ne_append (fun hend => hno (hother e he hend)) file last h

/-- The files of one archive, in a directory and under a name. The stamps of its manifest and of the archive are true,
and that of the archive tells the digest of the manifest which is there. -/
def SealedAt (fs : FileSystem) (dist : Path) (l : Location) (last : String) : Prop :=
  ∃ stem manifest inputs, (∀ e ∈ endings, fs.place (dist.join (stem ++ e)) = l ++ [last ++ e]) ∧
    fs.fileAt (l ++ [last ++ ".publish_manifest.json"]) = some manifest ∧
    Stamped fs l (last ++ ".publish_manifest.json") (stem ++ ".publish_manifest.json") inputs ∧
    Stamped fs l (last ++ ".zip") (stem ++ ".zip")
      [StampInput.ofBytes "publish_manifest" (stem ++ ".publish_manifest.json") manifest]

/-- The archive of a result and its manifest lie beside the stamps that are told, which are true. -/
def Sealed (o : PackageOptions) (fs : FileSystem) (r : PackageResult) : Prop :=
  ∃ l last, fs.place r.archive = l ++ [last ++ ".zip"] ∧ fs.place r.manifest = l ++ [last ++ ".publish_manifest.json"] ∧
    r.stamps.map fs.place = [l ++ [stamp (last ++ ".publish_manifest.json")], l ++ [stamp (last ++ ".zip")]] ∧
    SealedAt fs o.dist l last

theorem stamp_append (last e : String) : stamp (last ++ e) = last ++ stamp e := by
  simp only [stamp, String.append_assoc]

/-- The parts of an archive that are written have true stamps. -/
theorem sealedAt_of_written (hw : Written fs o.dist p.artifacts w')
    (hplace : ∀ e ∈ endings, fs.place (o.dist.join (p.stem ++ e)) = l ++ [last ++ e]) :
    SealedAt w'.files o.dist l last := by
  have hput {path : String} {content : Content} (ha : (path, content) ∈ p.artifacts) {bytes : ByteArray}
      (hbytes : ∀ held l, content.putAt fs held l = some bytes) {e : String} (he : e ∈ endings)
      (hpath : path = p.stem ++ e) : w'.files.fileAt (l ++ [last ++ e]) = some bytes := by
    have hfile := hw.fileAt_of_nodup (nodup_places fs o.dist p) ha hbytes
    rwa [hpath, hplace e he] at hfile
  obtain ⟨harchive, hmanifest, -⟩ := p.mem_artifacts
  have hstamps : (stamp p.manifestName,
        Content.text (Stamp.ofBytes p.manifestName p.manifest.toUTF8 p.inputs).text) ∈ p.artifacts ∧
      (stamp p.archiveName, Content.text (Stamp.ofBytes p.archiveName p.archive
        [StampInput.ofBytes "publish_manifest" p.manifestName p.manifest.toUTF8]).text) ∈ p.artifacts := by
    simp [Parts.artifacts]
  have hmanifest' := hput hmanifest (fun _ _ => rfl) (by decide) p.manifestName_eq
  refine ⟨p.stem, p.manifest.toUTF8, p.inputs, ?_, hmanifest', ?_, ?_⟩
  · intro e he
    rw [hw.extends_files.place_eq, hplace e he]
  · rw [← p.manifestName_eq]
    refine ⟨_, _, hmanifest', ?_, Stamp.attestsFrom_ofBytes _ _ _⟩
    rw [stamp_append]
    refine hput hstamps.1 (fun _ _ => rfl) (by decide) ?_
    rw [p.manifestName_eq, stamp_append]
  · rw [← p.manifestName_eq, ← p.archiveName_eq]
    refine ⟨_, _, hput harchive (fun _ _ => rfl) (by decide) p.archiveName_eq, ?_, Stamp.attestsFrom_ofBytes _ _ _⟩
    rw [stamp_append]
    refine hput hstamps.2 (fun _ _ => rfl) (by decide) ?_
    rw [p.archiveName_eq, stamp_append]

/-- True stamps stay true when the parts of an archive are put: they are put anew, or none of them is touched. -/
theorem SealedAt.of_written (h : SealedAt fs o.dist l last) (hw : Written fs o.dist p.artifacts w') :
    SealedAt w'.files o.dist l last := by
  obtain ⟨l', last', hplace⟩ := places_endings fs o.dist p.stem
  by_cases hsame : l = l' ∧ last = last'
  · rw [hsame.1, hsame.2]
    exact sealedAt_of_written hw hplace
  · have hkept {e : String} (he : e ∈ endings) :
        w'.files.fileAt (l ++ [last ++ e]) = fs.fileAt (l ++ [last ++ e]) := by
      refine frame_of_written hw fun e' he' heq => hsame ?_
      rw [hplace e' he'] at heq
      obtain ⟨hl, hname⟩ := List.append_inj' heq rfl
      exact ⟨hl, (eq_of_append_ending he he' (List.singleton_inj.1 hname)).1⟩
    obtain ⟨stem, manifest, inputs, hplace', hmanifest, hstamped, hstamped'⟩ := h
    refine ⟨stem, manifest, inputs, ?_, ?_, ?_, ?_⟩
    · intro e he
      rw [hw.extends_files.place_eq, hplace' e he]
    · rw [hkept (by decide), hmanifest]
    · refine hstamped.congr (hkept (by decide)) ?_
      rw [stamp_append]
      exact hkept (by decide)
    · refine hstamped'.congr (hkept (by decide)) ?_
      rw [stamp_append]
      exact hkept (by decide)

theorem Sealed.of_written (h : Sealed o fs r) (hw : Written fs o.dist p.artifacts w') : Sealed o w'.files r := by
  obtain ⟨l, last, harchive, hmanifest, hstamps, hsealed⟩ := h
  have hsame := hw.extends_files.place_eq
  refine ⟨l, last, by rw [hsame, harchive], by rw [hsame, hmanifest], ?_, hsealed.of_written hw⟩
  rw [← hstamps]
  exact List.map_congr_left fun path _ => hsame path

/-- What archives that are made one after the other leave: the stamps that are told for each are true, those from before
stay true, and no other stamps are touched. -/
structure Seals (o : PackageOptions) (fs fs' : FileSystem) (rs : List PackageResult) : Prop where
  extends_files : fs.Extends fs'
  sealed : ∀ r ∈ rs, Sealed o fs' r
  kept : ∀ r, Sealed o fs r → Sealed o fs' r
  told : ∀ l file, fs'.fileAt (l ++ [stamp file]) ≠ fs.fileAt (l ++ [stamp file]) →
    ∃ r ∈ rs, ∃ path ∈ r.stamps, fs.place path = l ++ [stamp file]

namespace Seals

theorem nil (o : PackageOptions) (fs : FileSystem) : Seals o fs fs [] :=
  ⟨.refl fs, by simp, fun _ hr => hr, fun _ _ hne => absurd rfl hne⟩

theorem cons (h : Seals o fs mid [r]) (hrest : Seals o mid fs' rs) : Seals o fs fs' (r :: rs) := by
  refine ⟨h.extends_files.trans hrest.extends_files, ?_, fun r' hr' => hrest.kept r' (h.kept r' hr'), ?_⟩
  · intro r' hr'
    rcases List.mem_cons.1 hr' with rfl | hr'
    · exact hrest.kept r' (h.sealed r' List.mem_cons_self)
    · exact hrest.sealed r' hr'
  · intro l file hne
    by_cases hmid : mid.fileAt (l ++ [stamp file]) = fs.fileAt (l ++ [stamp file])
    · obtain ⟨r', hr', path, hpath, hplace⟩ := hrest.told l file (by rwa [hmid])
      rw [h.extends_files.place_eq] at hplace
      exact ⟨r', List.mem_cons_of_mem r hr', path, hpath, hplace⟩
    · obtain ⟨r', hr', hpath⟩ := h.told l file hmid
      exact ⟨r', List.mem_cons.2 (.inl (List.mem_singleton.1 hr')), hpath⟩

end Seals

/-- Packaging a tree for a target leaves true stamps, whatever was packaged before. -/
theorem seals_of_packageOne (hreal : o.dryRun = false) (h : Runs (packageOne o shared s t) w r w') :
    Seals o w.files w'.files [r] := by
  obtain ⟨p, -, hw, -, harchive, hmanifest, -, -, -, hstamps⟩ := written_of_packageOne hreal h
  obtain ⟨l, last, hplace⟩ := places_endings w.files o.dist p.stem
  have hsame := hw.extends_files.place_eq
  have hstampPlaces : r.stamps.map w.files.place =
      [l ++ [stamp (last ++ ".publish_manifest.json")], l ++ [stamp (last ++ ".zip")]] := by
    rw [hstamps, p.manifestName_eq, p.archiveName_eq]
    simp only [stamp_append, List.map_cons, List.map_nil]
    rw [hplace _ (by decide), hplace _ (by decide)]
  refine ⟨hw.extends_files, ?_, fun r' hr' => hr'.of_written hw, ?_⟩
  · intro r' hr'
    rw [List.mem_singleton.1 hr']
    refine ⟨l, last, ?_, ?_, ?_, sealedAt_of_written hw hplace⟩
    · rw [hsame, harchive, p.archiveName_eq, hplace _ (by decide)]
    · rw [hsame, hmanifest, p.manifestName_eq, hplace _ (by decide)]
    · rw [← hstampPlaces]
      exact List.map_congr_left fun path _ => hsame path
  · intro l' file hne
    obtain ⟨e, he, heq⟩ : ∃ e ∈ endings, l' ++ [stamp file] = w.files.place (o.dist.join (p.stem ++ e)) := by
      by_contra hno
      exact hne (frame_of_written hw fun e he heq => hno ⟨e, he, heq⟩)
    rw [hplace e he] at heq
    have hmem : l' ++ [stamp file] ∈ r.stamps.map w.files.place := by
      rw [hstampPlaces, heq, stamp_append, stamp_append]
      rcases ending_of_stamp he (List.singleton_inj.1 (List.append_inj' heq rfl).2) with rfl | rfl
      · exact List.mem_cons_self
      · exact List.mem_cons_of_mem _ List.mem_cons_self
    obtain ⟨path, hpath, hplace'⟩ := List.mem_map.1 hmem
    exact ⟨r, List.mem_cons_self, path, hpath, hplace'⟩

theorem seals_of_runs (hreal : o.dryRun = false) {jobs : List (Source × CheckedTarget)}
    (h : Runs (jobs.mapM fun j => packageOne o shared j.1 j.2) w rs w') : Seals o w.files w'.files rs := by
  induction jobs generalizing w rs with
  | nil =>
    obtain ⟨rfl, rfl⟩ := Runs.mapM_nil_iff.1 h
    exact .nil o w.files
  | cons j jobs ih =>
    obtain ⟨r, w₁, rs₁, hone, hrest, rfl⟩ := Runs.mapM_cons_iff.1 h
    exact (seals_of_packageOne hreal hone).cons (ih hrest)

theorem seals_of_run (hreal : o.dryRun = false) (h : run fs o = (.ok rs, fs')) : Seals o fs fs' rs := by
  obtain ⟨p, w', -, rfl, hrun⟩ := runs_of_run h
  exact seals_of_runs hreal hrun

end Package

/-! ## Runs -/

/-- All stamps are true when a run is over: those of an export, beside the script and the manifest of each tree, and
those of the archives of a packager, which tell the digest of the manifest that is there. -/
theorem stamps_attest :
    (∀ (fs fs' : FileSystem) (store : Store) (options : ExportOptions) (reviewers : Reviewers BundleView)
      (now : Timestamp) (r : ExportResult), fs.WellFormed → options.dryRun = false →
      Export.run fs store options reviewers now = (.ok r, fs') →
        Preparation.StampedBundle fs fs' options r.prepared) ∧
    (∀ (fs fs' : FileSystem) (o : PackageOptions) (rs : List PackageResult), o.dryRun = false →
      Package.run fs o = (.ok rs, fs') → Package.Seals o fs fs' rs) :=
  ⟨fun _ _ _ _ _ _ _ hw hreal h => (Preparation.delivered_of_run hw hreal h).stampedBundle,
    fun _ _ _ _ hreal h => Package.seals_of_run hreal h⟩

def openOptions : ExportOptions := { project := "p", output := ⟨"out"⟩, assets := ⟨"assets"⟩ }

/-- The bundle with a script, for two targets. -/
def pairOptions : PackageOptions :=
  { Package.stageOptions with targets := [⟨"w", ["win"]⟩, ⟨"l", ["linux"]⟩] }

set_option maxRecDepth 100000 in
/-- The stamps of a bundle with two forks, and those of two archives. -/
theorem stamps_attest_of_forks :
    ({} : FileSystem).WellFormed ∧
    (∃ r fs', Export.run {} (.memory voicesShelf) openOptions {} default = (.ok r, fs') ∧
      (r.prepared.trees openOptions).length = 3 ∧ Preparation.StampedBundle {} fs' openOptions r.prepared) ∧
    ∃ rs fs', Package.run Package.stageFiles pairOptions = (.ok rs, fs') ∧ rs.length = 2 ∧
      Package.Seals pairOptions Package.stageFiles fs' rs := by
  have hw : ({} : FileSystem).WellFormed := by decide +kernel
  have hexport : (match Export.run {} (.memory voicesShelf) openOptions {} default with
      | (.ok r, _) => r.prepared.forks.length == 2
      | (.error _, _) => false) = true := by
    decide +kernel
  have hpackage : (match Package.run Package.stageFiles pairOptions with
      | (.ok rs, _) => rs.length == 2
      | (.error _, _) => false) = true := by
    decide +kernel
  refine ⟨hw, ?_, ?_⟩
  · split at hexport
    · next r fs' h =>
      have htrees : (r.prepared.trees openOptions).length = 3 := by
        rw [Preparation.trees, List.length_cons, List.length_map, eq_of_beq hexport]
      exact ⟨r, fs', h, htrees, stamps_attest.1 {} fs' _ openOptions {} default r hw rfl h⟩
    · cases hexport
  · split at hpackage
    · next rs fs' h => exact ⟨rs, fs', h, eq_of_beq hpackage, stamps_attest.2 Package.stageFiles fs' pairOptions rs rfl h⟩
    · cases hpackage

end StoryPress
