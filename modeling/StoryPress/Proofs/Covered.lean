import StoryPress.Proofs.Licences
import StoryPress.Proofs.PackagedForks
import StoryPress.Proofs.Replaced

/-!
# Licences of what is packaged

The licences in an archive cover the pictures in it, each once, if nothing is left over among the pictures of its tree.

* `Package.Licensed`: the licences in an archive, each of a picture in it;
* `Package.Covers`: the licences cover just the pictures;
* `Package.Underway`: what the archives of a run have left so far, kept from each archive to the next;
* `Package.SparesPictures`: a run does not put archives among the pictures that it packages;
* `Package.licences_cover_iff`: what is licensed when a bundle is packaged after its export.
-/

namespace StoryPress

open Layout Preparation

/-! ## Pictures that are listed -/

/-- The file lies in the directory of the pictures. -/
def TreeFile.isPicture (f : TreeFile) : Bool := (imagesDir ++ "/").toList.isPrefixOf f.path.toList

theorem TreeFile.isPicture_iff {ns : List String} (hne : ns ≠ []) (hns : ∀ n ∈ ns, Path.IsName n) {f : TreeFile}
    (hf : f.path = Text.joinWith "/" ns) : f.isPicture = true ↔ ∃ ms, ms ≠ [] ∧ ns = imagesDir :: ms := by
  rw [isPicture, List.isPrefixOf_iff_prefix, hf]
  constructor
  · rintro ⟨cs, hcs⟩
    have htext : Text.joinWith "/" ns = imagesDir ++ "/" ++ String.ofList cs := by
      have happend : (imagesDir ++ "/" ++ String.ofList cs).toList = (imagesDir ++ "/").toList ++ cs := by
        rw [String.toList_append, String.toList_ofList]
      exact String.toList_injective (hcs.symm.trans happend.symm)
    have hpieces := Path.pieces_joinNames hne hns
    rw [htext, Text.pieces_append, Text.pieces_eq_singleton (show '/' ∉ imagesDir.toList by decide)] at hpieces
    exact ⟨_, Text.pieces_ne_nil '/' (String.ofList cs), hpieces.symm⟩
  · rintro ⟨ms, hms, rfl⟩
    rw [Text.joinWith_cons hms]
    exact ⟨(Text.joinWith "/" ms).toList, String.toList_append.symm⟩

theorem Layout.image_joinWith {ns : List String} (hne : ns ≠ []) :
    image (Text.joinWith "/" ns) = gameDir ++ "/" ++ Text.joinWith "/" (imagesDir :: ns) := by
  simp only [image, Text.joinWith_cons hne, String.append_assoc]

/-- The licences of the pictures that a tree records. -/
def Preparation.Tree.licences (t : Tree) : List Legal.Entry := Legal.sortEntries (t.records.map Legal.Entry.ofUsage)

namespace Package

/-- Where the pictures of a tree are. -/
def picturesAt (fs : FileSystem) (s : Source) : Location := fs.place (s.root.join (gameDir ++ "/" ++ imagesDir))

theorem picturesAt_eq (fs : FileSystem) (s : Source) :
    picturesAt fs s = fs.place (s.root.join gameDir) ++ [imagesDir] := by
  have hgame : Clean gameDir := clean_of_plainName (by decide)
  rw [picturesAt, place_inBundle clean_imagesPath.inBundle, place_inBundle hgame.inBundle, names_imagesPath,
    names_of_isName (by decide), List.append_assoc]
  rfl

/-- The path in the bundle, and the digest, of each picture that is listed. -/
def listedPictures (files : List TreeFile) : List (String × String) :=
  (files.filter (·.isPicture)).map fun f => (gameDir ++ "/" ++ f.path, f.sha256)

section
variable {fs : FileSystem} {s : Source}

/-- What is listed of the pictures of a tree. -/
theorem mem_listedPictures_iff (hw : fs.WellFormed) {path sha : String} :
    (path, sha) ∈ listedPictures ((gameFiles fs s).map fileRow) ↔
      ∃ ns c, ns ≠ [] ∧ fs.fileAt (picturesAt fs s ++ ns) = some c ∧ path = image (Text.joinWith "/" ns) ∧
        sha = Hash.sha256Hex c := by
  have hnamed {ns : List String} {c : ByteArray}
      (hc : fs.fileAt (fs.place (s.root.join gameDir) ++ ns) = some c) : ∀ n ∈ ns, Path.IsName n := fun n hn =>
    hw.isName (FileSystem.fileAt_eq_some_iff.1 hc) n (List.mem_append_right _ hn)
  rw [picturesAt_eq, listedPictures, List.mem_map]
  constructor
  · rintro ⟨f, hf, heq⟩
    obtain ⟨hf, hpicture⟩ := List.mem_filter.1 hf
    obtain ⟨e, he, rfl⟩ := List.mem_map.1 hf
    obtain ⟨ns, hne, hc, hpath⟩ := mem_gameFiles_iff.1 he
    obtain ⟨ms, hms, rfl⟩ := (TreeFile.isPicture_iff hne (hnamed hc) hpath).1 hpicture
    obtain ⟨rfl, rfl⟩ := Prod.mk.inj heq
    refine ⟨ms, e.2, hms, by rw [List.append_assoc]; exact hc, ?_, rfl⟩
    rw [image_joinWith hms, ← hpath]
    rfl
  · rintro ⟨ns, c, hne, hc, rfl, rfl⟩
    rw [List.append_assoc] at hc
    have hmem : (Text.joinWith "/" (imagesDir :: ns), c) ∈ gameFiles fs s :=
      mem_gameFiles_iff.2 ⟨imagesDir :: ns, List.cons_ne_nil _ _, hc, rfl⟩
    refine ⟨_, List.mem_filter.2 ⟨List.mem_map_of_mem hmem, ?_⟩, by rw [image_joinWith hne]; rfl⟩
    exact (TreeFile.isPicture_iff (List.cons_ne_nil _ _) (hnamed hc) rfl).2 ⟨ns, hne, rfl⟩

/-- No picture is listed twice. -/
theorem nodup_listedPictures (hw : fs.WellFormed) : (listedPictures ((gameFiles fs s).map fileRow)).Nodup := by
  have hpaths : (((gameFiles fs s).map fileRow).map (·.path)).Nodup := by
    rw [List.map_map]
    exact nodup_gameFiles hw s
  refine List.Nodup.of_map (·.1) ?_
  rw [listedPictures, List.map_map]
  have hlisted : ((((gameFiles fs s).map fileRow).filter (·.isPicture)).map (·.path)).Nodup :=
    hpaths.sublist (List.filter_sublist.map _)
  have hinj := hlisted.map fun a b => (String.append_right_inj (gameDir ++ "/")).1
  rwa [List.map_map] at hinj

end

/-! ## Licences in an archive -/

/-- The licences cover just the pictures that are listed, by path and digest. -/
def Covers (entries : List Legal.Entry) (files : List TreeFile) : Prop :=
  (entries.map fun e => (e.path, e.sha256)).Perm (listedPictures files)

/-- The licences in an archive and the files that its manifest lists. -/
structure Licensed (o : PackageOptions) (s : Source) (t : CheckedTarget) (p : Parts) (entries : List Legal.Entry)
    (files : List TreeFile) : Prop where
  licenses_eq : p.licenses = (Legal.manifestJson s.slug o.version entries).pretty
  manifest_eq : p.manifest = (manifestJson o s t p.archiveName files).pretty
  /-- No path has two licences. -/
  nodup : (entries.map (·.path)).Nodup
  /-- Each licence is that of a picture that is listed, by its digest. -/
  shipped : ∀ e ∈ entries, (e.path, e.sha256) ∈ listedPictures files

/-! ## Archives of one run -/

/-- What the archives of a run have left so far: nothing but their files has been put. -/
structure Underway (fs : FileSystem) (o : PackageOptions) (mid : FileSystem) : Prop where
  extends_files : fs.Extends mid
  frame : ∀ l, (o.dryRun = false → ∀ k ∈ keys fs o, ∀ e ∈ endings, l ≠ fs.place (file o k e)) →
    mid.fileAt l = fs.fileAt l

section
variable {fs mid mid' fs' : FileSystem} {o : PackageOptions} {shared : Shared} {s : Source} {t : CheckedTarget}
  {p : Parts} {r : PackageResult}

theorem Underway.start (fs : FileSystem) (o : PackageOptions) : Underway fs o fs := ⟨.refl fs, fun _ _ => rfl⟩

theorem Underway.archived (h : Underway fs o mid) (hkey : (s.fork, t.name) ∈ keys fs o) (hs : s = treeOf o s.fork)
    (ha : Archived o shared s t mid p r mid') : Underway fs o mid' := by
  refine ⟨h.extends_files.trans ha.extends_files, fun l hl => ?_⟩
  cases hdry : o.dryRun with
  | true => rw [ha.idle hdry, h.frame l hl]
  | false =>
    have hstem : p.stem = stem o.slug (s.fork, t.name) := by
      rw [stem_of_build ha.built, stem, hs, slug_treeOf, fork_treeOf]
    rw [ha.frame l fun e he => ?_, h.frame l hl]
    rw [hstem, h.extends_files.place_eq]
    exact hl hdry _ hkey e he

/-- What holds of each archive that is made while only files of the run are put holds of all its archives. -/
theorem forall₂_of_archives {jobs : List (Source × CheckedTarget)} {rs : List PackageResult}
    {Q : Source × CheckedTarget → PackageResult → Prop} (h : Archives o shared mid jobs rs fs')
    (hstart : Underway fs o mid)
    (hjobs : ∀ j ∈ jobs, (j.1.fork, j.2.name) ∈ keys fs o ∧ j.1 = treeOf o j.1.fork)
    (hstep : ∀ mid j p r mid', mid.WellFormed → Underway fs o mid → j ∈ jobs →
      Archived o shared j.1 j.2 mid p r mid' → Q j r) : List.Forall₂ Q jobs rs := by
  -- on the archives; that only files of the run have been put goes from each archive to the next
  induction h with
  | nil => exact .nil
  | cons hw first rest ih =>
    obtain ⟨hkey, hs⟩ := hjobs _ List.mem_cons_self
    refine .cons (hstep _ _ _ _ _ hw hstart List.mem_cons_self first) (ih (hstart.archived hkey hs first) ?_ ?_)
    · exact fun j hj => hjobs j (List.mem_cons_of_mem _ hj)
    · exact fun mid j p r mid' hw hu hj => hstep mid j p r mid' hw hu (List.mem_cons_of_mem _ hj)

theorem mem_keys_of_plan {plan : Plan} (hp : Package.plan fs o = .ok plan) (hs : s ∈ plan.sources)
    (ht : t ∈ plan.targets) : (s.fork, t.name) ∈ keys fs o ∧ s = treeOf o s.fork := by
  obtain ⟨htargets, hsources⟩ := plan_eq_ok hp
  refine ⟨?_, (eq_treeOf_of_sources hsources hs).1⟩
  rw [(sources_eq_ok hsources).1] at hs
  obtain ⟨fork, hfork, rfl⟩ := List.mem_map.1 hs
  rw [keys, ← names_of_checkTargets htargets, fork_treeOf]
  exact List.mem_product.2 ⟨hfork, List.mem_map_of_mem ht⟩

end

/-! ## Trees of an export -/

/-- No archive of a run is put among the pictures of a tree that it packages. -/
def SparesPictures (fs : FileSystem) (o : PackageOptions) : Prop :=
  o.dryRun = false → ∀ k ∈ keys fs o, ∀ k' ∈ keys fs o, ∀ e ∈ endings,
    ¬picturesAt fs (treeOf o k.1) <+: fs.place (file o k' e)

/-- None is if the dist directory does not lie among the pictures. -/
theorem sparesPictures_of_dist {fs : FileSystem} {o : PackageOptions}
    (hplain : ∀ k ∈ keys fs o, '/' ∉ (stem o.slug k).toList)
    (hdist : ∀ k ∈ keys fs o, ¬picturesAt fs (treeOf o k.1) <+: fs.place o.dist) : SparesPictures fs o := by
  intro _ k hk k' hk' e he hpre
  rw [place_file (hplain k' hk') he, List.prefix_concat_iff] at hpre
  rcases hpre with heq | hpre
  · rw [picturesAt_eq] at heq
    have hname : imagesDir = stem o.slug k' ++ e := (List.cons.inj (List.append_inj' heq rfl).2).1
    have hlast := getLast?_append_ending he (stem o.slug k')
    rw [← hname] at hlast
    rcases (ends_endings e he).2 with hend | hend <;> exact absurd (hlast.trans hend) (by decide)
  · exact hdist k hk hpre

section
variable {fs fs' mid mid' : FileSystem} {options : ExportOptions} {now : Timestamp} {p : Preparation}
  {o : PackageOptions}

/-- A tree that is packaged is one that was exported. -/
theorem exists_tree (h : Delivered fs fs' options now p) (hroot : fs'.place o.exportRoot = fs'.place options.output)
    (hl : fs'.Leads o.exportRoot) {fork : Option String} (hf : fork ∈ none :: (forkSlugs fs' o).map some) :
    ∃ t ∈ p.trees options, ∀ rel, InBundle rel →
      fs'.place ((treeOf o fork).root.join rel) = fs.place options.output ++ (names t.dir ++ names rel) := by
  have hplace : fs'.place o.exportRoot = fs.place options.output := hroot.trans (h.place_eq _)
  rcases List.mem_cons.1 hf with rfl | hf
  · refine ⟨_, List.mem_cons_self, fun rel hrel => ?_⟩
    rw [treeOf, place_inBundle hrel, hplace]
    rfl
  · obtain ⟨slug, hslug, rfl⟩ := List.mem_map.1 hf
    unfold forkSlugs at hslug
    split at hslug
    · next ds _ hds =>
      obtain ⟨d, hd, rfl⟩ := List.mem_map.1 hslug
      rw [((recordedForks_iff h hroot hl).1 hds).2] at hd
      obtain ⟨f, hmem, rfl⟩ := List.mem_map.1 hd
      have hplain := h.settled.plainName_slug hmem
      refine ⟨_, List.mem_cons_of_mem _ (List.mem_map_of_mem hmem), fun rel hrel => ?_⟩
      have hfork : fs'.place (treeOf o (some (ForkDescriptor.ofRoute f.1).slug)).root =
          fs.place options.output ++ names (Layout.fork f.1.slug) := by
        rw [← hplace]
        exact place_inBundle (clean_fork hplain).inBundle fs' o.exportRoot
      rw [place_inBundle hrel, hfork, List.append_assoc]
    · cases hslug

/-- What is among the pictures of a tree lies below a directory that is pruned. -/
theorem split_generated (hp : Settled fs options p) {t : Tree} (ht : t ∈ p.trees options) {ns : List String}
    (hns : ns ≠ []) : ∃ ms ∈ generatedNames, ∃ rest, rest ≠ [] ∧ t.pictureNames ns = ms ++ rest := by
  rcases names_dir hp ht with hd | ⟨slug, hd⟩
  · exact ⟨[gameDir, imagesDir], by decide, ns, hns, by rw [Tree.pictureNames, hd]; rfl⟩
  · exact ⟨[forksDir], by decide, slug :: gameDir :: imagesDir :: ns, List.cons_ne_nil _ _,
      by rw [Tree.pictureNames, hd]; rfl⟩

theorem leftover_picture_iff (h : Delivered fs fs' options now p) {t : Tree} (ht : t ∈ p.trees options)
    {ns : List String} (hns : ns ≠ []) :
    Leftover fs' options p (fs.place options.output ++ t.pictureNames ns) ↔
      (fs'.fileAt (fs.place options.output ++ t.pictureNames ns)).isSome ∧
        Sink.walkedName (t.pictureNames ns) ∉ p.paths := by
  constructor
  · rintro ⟨ms, -, rest, -, heq, hfile, hr⟩
    rw [h.place_eq] at heq
    rw [List.append_cancel_left heq] at hfile ⊢
    exact ⟨hfile, hr⟩
  · rintro ⟨hfile, hr⟩
    obtain ⟨ms, hms, rest, hrest, heq⟩ := split_generated h.settled ht hns
    exact ⟨ms, hms, rest, hrest, by rw [h.place_eq, heq], hfile, heq ▸ hr⟩

theorem output_eq (h : Delivered fs fs' options now p) (hc : p.CleanPictures) {t : Tree} (ht : t ∈ p.trees options)
    {u : AssetUsage} (hu : u ∈ t.records) :
    names u.relative ≠ [] ∧ u.output = image (Text.joinWith "/" (names u.relative)) := by
  obtain ⟨husages, -⟩ := (mem_records_iff h.settled ht).1 hu
  obtain ⟨hne, -, hjoin⟩ := clean_relative h.settled h.wellFormed hc husages
  exact ⟨hne, by rw [hjoin, AssetUsage.output]⟩

/-- Pictures with one path are one file. -/
theorem sha256_eq_of_output (h : Delivered fs fs' options now p) (hc : p.CleanPictures) (hapart : Apart fs options p)
    {t : Tree} (ht : t ∈ p.trees options) {u v : AssetUsage} (hu : u ∈ t.records) (hv : v ∈ t.records)
    (heq : u.output = v.output) : u.sha256 = v.sha256 := by
  obtain ⟨c, hfile, hsha⟩ := h.fileAt_record hc ht hapart hu
  obtain ⟨d, hfile', hsha'⟩ := h.fileAt_record hc ht hapart hv
  rw [image_injective heq] at hfile
  rw [hsha, hsha', Option.some.inj (hfile.symm.trans hfile')]

/-- A picture of a tree is recorded just if it is not left over. -/
theorem recorded_iff (h : Delivered fs fs' options now p) (hc : p.CleanPictures) (hplain : PlainBelow fs options)
    (hapart : Apart fs options p) {t : Tree} (ht : t ∈ p.trees options) {ns : List String} (hns : ns ≠ [])
    {c : ByteArray}
    (hfile : fs'.fileAt (fs.place options.output ++ t.pictureNames ns) = some c) :
    (∃ u ∈ t.records, u.output = image (Text.joinWith "/" ns) ∧ u.sha256 = Hash.sha256Hex c) ↔
      ¬Leftover fs' options p (fs.place options.output ++ t.pictureNames ns) := by
  rw [leftover_picture_iff h ht hns, hfile, not_and, Classical.not_not]
  constructor
  · rintro ⟨u, hu, houtput, -⟩ -
    obtain ⟨-, ha⟩ := record_copied h.settled h.wellFormed ht hu (settledText fs options now)
    have hnames : names u.relative = ns := by
      rw [image_injective houtput]
      refine names_joinWith hns fun n hn => ?_
      exact h.wellFormed_after.isName (FileSystem.fileAt_eq_some_iff.1 hfile) n (by simp [Tree.pictureNames, hn])
    have hr := recognised_of_clean ha (clean_files h.settled h.wellFormed hc ha)
    rwa [Recognised, names_under, AssetUsage.output, names_image, hnames, ← Tree.pictureNames] at hr
  · intro hr
    obtain ⟨u, hu, hnames, hsha⟩ := h.record_of_fileAt hc ht hapart hplain hfile (hr rfl)
    exact ⟨u, hu, by rw [(output_eq h hc ht hu).2, hnames], hsha⟩

section
variable (h : Delivered fs fs' options now p) (hc : p.CleanPictures) (hapart : Apart fs options p) {t : Tree}
  (ht : t ∈ p.trees options) (hw : mid.WellFormed) {s : Source}
  (hpictures : ∀ ns,
    mid.fileAt (picturesAt mid s ++ ns) = fs'.fileAt (fs.place options.output ++ t.pictureNames ns))
include h hc hapart ht hw hpictures

/-- Each licence of a tree is that of a picture that is listed. -/
theorem shipped_of_told {path sha : String} (he : (path, sha) ∈ t.licences.map fun e => (e.path, e.sha256)) :
    (path, sha) ∈ listedPictures ((gameFiles mid s).map fileRow) := by
  obtain ⟨u, hu, hpath, hsha⟩ :=
    (Legal.mem_told_iff fun u hu v hv => sha256_eq_of_output h hc hapart ht hu hv).1 he
  obtain ⟨c, hfile, hdigest⟩ := h.fileAt_record hc ht hapart hu
  obtain ⟨hne, houtput⟩ := output_eq h hc ht hu
  exact (mem_listedPictures_iff hw).2
    ⟨_, c, hne, (hpictures _).trans hfile, hpath.symm.trans houtput, hsha.symm.trans hdigest⟩

/-- The licences of a tree cover its pictures just if nothing is left over among them. -/
theorem covers_licences_iff (hplain : PlainBelow fs options) :
    Covers t.licences ((gameFiles mid s).map fileRow) ↔
      ∀ ns, ns ≠ [] → ¬Leftover fs' options p (fs.place options.output ++ t.pictureNames ns) := by
  have hsame := fun u hu v hv => sha256_eq_of_output h hc hapart ht (u := u) (v := v) hu hv
  have hnodup : (t.licences.map fun e => (e.path, e.sha256)).Nodup := by
    refine List.Nodup.of_map (·.1) ?_
    rw [List.map_map]
    exact Legal.nodup_paths _
  -- neither list has duplicates, so it is enough to compare what is in them
  rw [Covers, List.perm_ext_iff_of_nodup hnodup (nodup_listedPictures hw)]
  constructor
  · intro hmem ns hne hleft
    obtain ⟨c, hfile⟩ := Option.isSome_iff_exists.1 hleft.isSome
    have hlisted := (mem_listedPictures_iff hw).2 ⟨ns, c, hne, (hpictures ns).trans hfile, rfl, rfl⟩
    have htold := (Legal.mem_told_iff hsame).1 ((hmem _).2 hlisted)
    exact (recorded_iff h hc hplain hapart ht hne hfile).1 htold hleft
  · rintro hno ⟨path, sha⟩
    refine ⟨shipped_of_told h hc hapart ht hw hpictures, fun hlisted => ?_⟩
    obtain ⟨ns, c, hne, hfile, hpath, hsha⟩ := (mem_listedPictures_iff hw).1 hlisted
    rw [hpictures] at hfile
    obtain ⟨u, hu, houtput, hdigest⟩ := (recorded_iff h hc hplain hapart ht hne hfile).2 (hno ns hne)
    exact (Legal.mem_told_iff hsame).2 ⟨u, hu, houtput.trans hpath.symm, hdigest.trans hsha.symm⟩

end

/-- What is put while a tree is packaged leaves the manifests of all trees as they were. -/
theorem Underway.fileAt_manifest (h : Underway fs o mid) (root : Path) :
    mid.fileAt (mid.place (root.join exportManifest)) = fs.fileAt (fs.place (root.join exportManifest)) := by
  rw [h.extends_files.place_eq]
  exact h.frame _ fun _ k _ e he => (place_ne_manifest (stem o.slug k) he fs o.dist root).symm

/-- It leaves the pictures as they were, too. -/
theorem Underway.fileAt_picture (h : Underway fs o mid) (hspare : SparesPictures fs o) {k : Key}
    (hk : k ∈ keys fs o) (ns : List String) :
    mid.fileAt (picturesAt mid (treeOf o k.1) ++ ns) = fs.fileAt (picturesAt fs (treeOf o k.1) ++ ns) := by
  rw [picturesAt, h.extends_files.place_eq]
  refine h.frame _ fun hreal k' hk' e he heq => hspare hreal k hk k' hk' e he ?_
  rw [← heq]
  exact List.prefix_append _ _

/-- The licences in the archive of an exported tree cover its pictures just if nothing is left over among them. -/
theorem licensed_of_archived {shared : Shared} {s : Source} {target : CheckedTarget} {q : Parts} {r : PackageResult}
    (h : Delivered fs fs' options now p) (hc : p.CleanPictures) (hplain : PlainBelow fs options)
    (hapart : Apart fs options p) (hroot : fs'.place o.exportRoot = fs'.place options.output)
    (hl : fs'.Leads o.exportRoot) (hspare : SparesPictures fs' o) (hw : mid.WellFormed)
    (hunder : Underway fs' o mid) (hkey : (s.fork, target.name) ∈ keys fs' o) (hs : s = treeOf o s.fork)
    (hls : fs'.Leads s.root) (ha : Archived o shared s target mid q r mid') :
    ∃ entries files, Licensed o s target q entries files ∧
      (Covers entries files ↔ ∀ ns, ns ≠ [] → ¬Leftover fs' options p (picturesAt fs' s ++ ns)) := by
  obtain ⟨t, ht, hplace⟩ := exists_tree h hroot hl (List.mem_product.1 hkey).1
  rw [← hs] at hplace
  have hat (ns : List String) : picturesAt fs' s ++ ns = fs.place options.output ++ t.pictureNames ns := by
    rw [picturesAt, hplace _ clean_imagesPath.inBundle, names_imagesPath]
    simp [Tree.pictureNames]
  have hpictures (ns : List String) :
      mid.fileAt (picturesAt mid s ++ ns) = fs'.fileAt (fs.place options.output ++ t.pictureNames ns) := by
    rw [hs, hunder.fileAt_picture hspare hkey, ← hs, hat]
  -- the licences that are read are those of the records of the tree
  have hmade := made_of_build hw ha.built
  obtain ⟨entries, hentries, hlicenses⟩ := hmade.licenses_eq
  have hmanifest : mid.fileAt (mid.place (s.root.join exportManifest)) =
      some (settledText fs options now t.dir t.manifest).toUTF8 := by
    rw [hunder.fileAt_manifest, hplace _ clean_manifests.1.inBundle, ← names_under,
      ← place_inBundle (clean_manifests.1.under (isTree_of_mem h.settled ht)).inBundle, h.fileAt_treeManifest hc ht]
  obtain rfl : entries = t.licences :=
    ((Legal.entries_iff hw (hunder.extends_files.leads hls) hmanifest).1 hentries).2.2
  refine ⟨t.licences, (gameFiles mid s).map fileRow, ⟨hlicenses, hmade.manifest_eq, Legal.nodup_paths _, ?_⟩, ?_⟩
  · exact fun e he => shipped_of_told h hc hapart ht hw hpictures (List.mem_map_of_mem he)
  · simp only [hat]
    exact covers_licences_iff h hc hapart ht hw hpictures hplain

/-- When a bundle is packaged after its export, the licences in each archive are of pictures in it, each by its digest
and none twice. They cover the pictures just if nothing is left over among those of the tree. Nothing is where the path
of the output still leads there, as it does if the bundle is packaged under it, or if it does not go up. For the
pictures to be apart and spared see `apart_of_clean` and `sparesPictures_of_dist`. -/
theorem licences_cover_iff {store : Store} {reviewers : Reviewers BundleView} {r : ExportResult}
    {fs'' : FileSystem} {rs : List PackageResult} (hw : fs.WellFormed) (hreal : options.dryRun = false)
    (h : Export.run fs store options reviewers now = (.ok r, fs')) (hc : r.prepared.CleanPictures)
    (hplain : PlainBelow fs options) (hapart : Apart fs options r.prepared)
    (hroot : fs'.place o.exportRoot = fs'.place options.output) (hspare : SparesPictures fs' o)
    (hrun : Package.run fs' o = (.ok rs, fs'')) :
    ∃ plan, Package.plan fs' o = .ok plan ∧
      List.Forall₂ (fun j result => ∃ mid q mid' entries files,
        Archived o plan.shared j.1 j.2 mid q result mid' ∧ Licensed o j.1 j.2 q entries files ∧
          (Covers entries files ↔ ∀ ns, ns ≠ [] → ¬Leftover fs' options r.prepared (picturesAt fs' j.1 ++ ns)))
        (plan.sources ×ˢ plan.targets) rs ∧
      (fs'.Leads options.output → ∀ l, ¬Leftover fs' options r.prepared l) ∧
      (o.exportRoot = options.output → fs'.Leads options.output) ∧
      (".." ∉ options.output.segments → fs'.Leads options.output) := by
  have hd := delivered_of_run hw hreal h
  obtain ⟨plan, w', hp, -, hruns⟩ := runs_of_run hrun
  obtain ⟨-, hsources⟩ := plan_eq_ok hp
  have hleads := (leads_of_sources hsources).1
  have hl : fs'.Leads o.exportRoot := by
    apply hleads ⟨none, o.slug, o.exportRoot⟩
    rw [(sources_eq_ok hsources).1]
    exact List.mem_cons_self
  refine ⟨plan, hp, ?_, fun hl l hleft => ?_, fun heq => heq ▸ hl, hd.leads_after⟩
  · have hkeys (j : Source × CheckedTarget) (hj : j ∈ plan.sources ×ˢ plan.targets) :=
      mem_keys_of_plan hp (mem_jobs.1 hj).1 (mem_jobs.1 hj).2
    refine forall₂_of_archives (archives_of_runs hd.wellFormed_after hruns) (.start fs' o) hkeys ?_
    intro mid j q result mid' hw' hunder hj ha
    obtain ⟨hkey, hs⟩ := hkeys j hj
    obtain ⟨entries, files, hlicensed, hcovers⟩ := licensed_of_archived hd hc hplain hapart hroot hl hspare hw'
      hunder hkey hs (hleads _ (mem_jobs.1 hj).1) ha
    exact ⟨mid, q, mid', entries, files, ha, hlicensed, hcovers⟩
  · have hfile := hleft.isSome
    obtain ⟨ms, hms, ns, hns, rfl, -, hr⟩ := hleft
    rw [hd.place_eq, hd.fileAt_eq_none hl hms hns hr] at hfile
    cases hfile

end

/-- A dry run of a packager that finds the bundle under its own name. -/
def leftoverPackage : PackageOptions :=
  { slug := "p", title := "p", exportRoot := ⟨"out"⟩, dist := ⟨"d"⟩, targets := [⟨"w", ["win"]⟩], forks := false,
    dryRun := true }

set_option maxRecDepth 100000 in
/-- The picture stays, and the bundle is packaged with it. -/
theorem leftover_packaged :
    ∃ r fs' plan rs, Export.run pictureFiles (.memory plainShelf) pinnedOptions {} default = (.ok r, fs') ∧
      r.prepared.compiled.catalog.registrations = [] ∧ "game/images/old.png" ∉ r.prepared.paths ∧
      (fs'.fileAt ["out", "game", "images", "old.png"]).isSome ∧
      plan.sources = [treeOf leftoverPackage none] ∧ plan.targets = [⟨"w", [.windows]⟩] ∧
      Package.plan fs' leftoverPackage = .ok plan ∧ Package.run fs' leftoverPackage = (.ok rs, fs') := by
  have hruns : (match Export.run pictureFiles (.memory plainShelf) pinnedOptions {} default with
      | (.ok r, fs') =>
        r.prepared.compiled.catalog.registrations.isEmpty && !r.prepared.paths.contains "game/images/old.png" &&
          (fs'.fileAt ["out", "game", "images", "old.png"]).isSome &&
          (match Package.plan fs' leftoverPackage with
          | .ok plan => decide (plan.sources = [treeOf leftoverPackage none] ∧ plan.targets = [⟨"w", [.windows]⟩])
          | .error _ => false) &&
          (Archive.addTree fs' {} (entryName (treeOf leftoverPackage none) ⟨"w", [.windows]⟩ gameDir)
            ((treeOf leftoverPackage none).root.join gameDir)).isOk &&
          (inputsOf fs' (treeOf leftoverPackage none)).isOk &&
          decide (r.manifest.toUTF8.size ≤ maxDocumentBytes) &&
          (Json.Tree.written (r.prepared.masterManifest.toJson (default : Timestamp).text)).value.isOk &&
          endings.all (fun e => !fs'.isFile (leftoverPackage.dist.join ("p-w" ++ e)))
      | (.error _, _) => false) = true := by
    decide +kernel
  split at hruns
  · next r fs' hrun =>
    simp only [Bool.and_eq_true, List.isEmpty_iff, Bool.not_eq_true', decide_eq_true_eq] at hruns
    obtain ⟨⟨⟨⟨⟨⟨⟨⟨hregistrations, hpath⟩, hleft⟩, hplan⟩, htree⟩, hinputs⟩, hsize⟩, hread⟩, habsent⟩ := hruns
    split at hplan
    · next plan hp =>
      obtain ⟨hsources, htargets⟩ := of_decide_eq_true hplan
      have hw : pictureFiles.WellFormed := by decide +kernel
      have hd := delivered_of_run hw rfl hrun
      -- the manifest of the export is read without its text being parsed here
      have hl : fs'.Leads leftoverPackage.exportRoot :=
        (leads_of_sources (plan_eq_ok hp).2).1 (treeOf leftoverPackage none) (by simp [hsources])
      have hplace : fs'.place (leftoverPackage.exportRoot.join exportManifest) =
          pictureFiles.place (pinnedOptions.output.join exportManifest) := by
        rw [hd.place_eq]
        decide +kernel
      have hmanifest := hd.fileAt_manifest
      rw [← hplace] at hmanifest
      rw [manifest_eq_of_run hw rfl hrun] at hsize
      obtain ⟨v, hv⟩ := exists_of_isOk hread
      obtain ⟨w, hreads, -⟩ := Json.Rereads.value_eq_ok_iff.1 hv
      have hentries := (Legal.entries_iff hd.wellFormed_after hl hmanifest).2 ⟨hsize, ⟨w, hreads⟩, rfl⟩
      obtain ⟨a, htree⟩ := exists_of_isOk htree
      obtain ⟨inputs, hinputs⟩ := exists_of_isOk hinputs
      obtain ⟨q, hbuild⟩ := exists_build leftoverPackage plan.shared htree hentries hinputs
      have hstem : q.stem = "p-w" := stem_of_build hbuild
      obtain ⟨rs, hrs⟩ := run_of_builds rfl hp fun s hs t ht => by
        rw [hsources, List.mem_singleton] at hs
        rw [htargets, List.mem_singleton] at ht
        subst hs ht
        refine ⟨q, hbuild, fun e he => ?_⟩
        rw [hstem]
        simpa using List.all_eq_true.1 habsent e he
      exact ⟨r, fs', plan, rs, hrun, hregistrations, by simpa using hpath, hleft, hsources, htargets, hp, hrs⟩
    · cases hplan
  · cases hruns

/-- Pruning removes the directory through which the path of the output goes; the picture that is left over is packaged
without a licence. -/
theorem licence_missing_for_leftover :
    pictureFiles.WellFormed ∧ pinnedOptions.dryRun = false ∧ PlainBelow pictureFiles pinnedOptions ∧
    ∃ r fs' result plan mid q mid' entries files,
      Export.run pictureFiles (.memory plainShelf) pinnedOptions {} default = (.ok r, fs') ∧
      r.prepared.CleanPictures ∧ Apart pictureFiles pinnedOptions r.prepared ∧
      fs'.place leftoverPackage.exportRoot = fs'.place pinnedOptions.output ∧ SparesPictures fs' leftoverPackage ∧
      Package.run fs' leftoverPackage = (.ok [result], fs') ∧ Package.plan fs' leftoverPackage = .ok plan ∧
      Archived leftoverPackage plan.shared (treeOf leftoverPackage none) ⟨"w", [.windows]⟩ mid q result mid' ∧
      Licensed leftoverPackage (treeOf leftoverPackage none) ⟨"w", [.windows]⟩ q entries files ∧
      ¬Covers entries files := by
  obtain ⟨r, fs', plan, rs, hrun, hregistrations, hpath, hleft, hsources, htargets, hp, hrs⟩ := leftover_packaged
  have hw : pictureFiles.WellFormed := by decide +kernel
  have hplain : PlainBelow pictureFiles pinnedOptions := plainBelow_of_entries (by decide +kernel)
  have hd := delivered_of_run hw rfl hrun
  have hunused (u : AssetUsage) : u ∉ r.prepared.compiled.catalog.usages := by
    intro hu
    obtain ⟨reg, hreg, -⟩ := AssetCatalog.mem_usages hu
    rw [hregistrations] at hreg
    cases hreg
  have hclean : r.prepared.CleanPictures := fun u hu => absurd hu (hunused u)
  have hapart : Apart pictureFiles pinnedOptions r.prepared := fun u hu => absurd hu (hunused u)
  have hroot : fs'.place leftoverPackage.exportRoot = fs'.place pinnedOptions.output := by
    rw [hd.place_eq, hd.place_eq]
    decide +kernel
  have hspare : SparesPictures fs' leftoverPackage := by
    intro hreal
    cases hreal
  obtain ⟨plan', hp', hall, -⟩ := licences_cover_iff hw rfl hrun hclean hplain hapart hroot hspare hrs
  obtain rfl := Except.ok.inj (hp.symm.trans hp')
  have hjobs : plan.sources ×ˢ plan.targets = [(treeOf leftoverPackage none, ⟨"w", [.windows]⟩)] := by
    rw [hsources, htargets]
    rfl
  rw [hjobs] at hall
  obtain ⟨result, rest, ⟨mid, q, mid', entries, files, ha, hlicensed, hcovers⟩, hrest, rfl⟩ :=
    List.forall₂_cons_left_iff.1 hall
  obtain rfl := List.forall₂_nil_left_iff.1 hrest
  refine ⟨hw, rfl, hplain, r, fs', result, plan, mid, q, mid', entries, files, hrun, hclean, hapart, hroot, hspare, hrs,
    hp, ha, hlicensed, fun hcovered => ?_⟩
  have hpictures : picturesAt fs' (treeOf leftoverPackage none) ++ ["old.png"] =
      ["out", "game", "images", "old.png"] := by
    rw [picturesAt, hd.place_eq]
    decide +kernel
  have hold : Leftover fs' pinnedOptions r.prepared ["out", "game", "images", "old.png"] := by
    have hwalked : Sink.walkedName ([gameDir, imagesDir] ++ ["old.png"]) = "game/images/old.png" := by decide +kernel
    refine ⟨[gameDir, imagesDir], by decide, ["old.png"], by decide, ?_, hleft, hwalked.symm ▸ hpath⟩
    rw [hd.place_eq]
    decide +kernel
  exact hcovers.1 hcovered ["old.png"] (by decide) (hpictures ▸ hold)

end Package

end StoryPress
