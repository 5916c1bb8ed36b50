import StoryPress.Proofs.Contents
import StoryPress.Proofs.Declared
import StoryPress.Proofs.LateRefusals
import StoryPress.Proofs.Rerun

/-!
# Licences of pictures

A packager reads the records of the pictures in a tree from its manifest, and tells one licence for each path. The
pictures of a tree are those that its manifest records, unless something is left over among them.

* `Legal.entries_iff`: the licences that are read from the text of a manifest;
* `Preparation.Delivered.fileAt_record`, `Preparation.Delivered.record_of_fileAt`: the pictures of a tree and its
  records.
-/

namespace StoryPress

open Layout

/-! ## Records -/

namespace Legal

/-- The licence of a picture in use. -/
def Entry.ofUsage (u : AssetUsage) : Entry :=
  ⟨u.alias_, u.output, u.sha256, u.origin.license, u.origin.author, u.origin.source⟩

/-- The record of a picture is read as its licence. -/
theorem Entry.ofRecord_normalize {u : AssetUsage} {x : Json} (h : Json.Rereads u.recordJson x) :
    ofRecord x.normalize = ofUsage u := by
  unfold AssetUsage.recordJson at h
  dsimp only at h
  have text {key : String} {o : Option String} (y : Json) (hy : Json.Rereads (Json.ofText? o) y)
      (hfield : x.normalize.field? key = some y.normalize) : (x.normalize.field? key).bind Json.asString? = o := by
    rw [hfield, ← (Json.Rereads.ofText? o).unique hy]
    cases o <;> rfl
  have field {key : String} {o : Option String} (hkey : (key, Json.ofText? o) ∈ _) :=
    (Json.field?_of_rereads h (by simp) hkey).elim fun y hy => text y hy.1 hy.2
  simp only [ofRecord, ofUsage, @field "alias" (some u.alias_) (by simp [Json.ofText?]),
    @field "output_path" (some u.output) (by simp [Json.ofText?]),
    @field "sha256" (some u.sha256) (by simp [Json.ofText?]), @field "license" u.origin.license (by simp),
    @field "author" u.origin.author (by simp), @field "source" u.origin.source (by simp), Option.getD_some]

/-- The records in a manifest are those of its pictures, backgrounds first. -/
theorem map_records {m : ExportManifest} {time : String} {w : Json} (h : Json.Rereads (m.toJson time) w) :
    (records w.normalize).map Entry.ofRecord = (m.backgrounds ++ m.portraits).map Entry.ofUsage := by
  have hlist {us : List AssetUsage} {y : Json} (hy : Json.Rereads (.array (us.map AssetUsage.recordJson)) y) :
      (y.normalize.asArray?.getD []).map Entry.ofRecord = us.map Entry.ofUsage := by
    obtain ⟨ws, hws, rfl⟩ := Json.Rereads.array_iff.1 hy
    rw [List.forall₂_map_left_iff] at hws
    have hentries := map_eq_of_forall₂ (g := fun w : Json => Entry.ofRecord w.normalize)
      (hws.imp fun u w hw => Entry.ofRecord_normalize hw)
    rw [Json.normalize, Json.normalizeItems_eq, ← hentries]
    exact List.map_map
  have hkeys : ((m.fieldsBefore ++ [(ExportManifest.timeKey, Json.string time)] ++ m.fieldsAfter).map (·.1)).Nodup := by
    simp [ExportManifest.fieldsBefore, ExportManifest.fieldsAfter, ExportManifest.timeKey]
  have hmem : ("assets", Json.object [("backgrounds", .array (m.backgrounds.map AssetUsage.recordJson)),
      ("portraits", .array (m.portraits.map AssetUsage.recordJson))]) ∈
        m.fieldsBefore ++ [(ExportManifest.timeKey, Json.string time)] ++ m.fieldsAfter := by
    simp [ExportManifest.fieldsAfter]
  obtain ⟨x, hx, hassets⟩ := Json.field?_of_rereads h hkeys hmem
  obtain ⟨b, hb, hbackgrounds⟩ := Json.field?_of_rereads hx (by simp) (.head _)
  obtain ⟨p, hp, hportraits⟩ := Json.field?_of_rereads hx (by simp) (.tail _ (.head _))
  simp only [records, List.flatMap_cons, List.flatMap_nil, List.append_nil, hassets, Option.bind_some, hbackgrounds,
    hportraits, List.map_append, hlist hb, hlist hp]

/-! ## Licences of a tree -/

section
variable {fs : FileSystem} {root : Path} {m : ExportManifest} {time : String}

/-- The value that is read where the text of a manifest stands. -/
theorem manifestOf_iff (hw : fs.WellFormed) (hl : fs.Leads root)
    (hfile : fs.fileAt (fs.place (root.join exportManifest)) = some (m.toJson time).pretty.toUTF8) {v : Option Json} :
    manifestOf fs root = .ok v ↔ (m.toJson time).pretty.toUTF8.size ≤ maxDocumentBytes ∧
      ∃ w, Json.Rereads (m.toJson time) w ∧ v = some w.normalize := by
  have hclean := clean_manifests.1
  have hfound : fs.isFile (root.join exportManifest) = true := by
    rw [hclean.isFile_iff hw, ← place_inBundle hclean.inBundle, hfile]
    exact ⟨hl, rfl⟩
  have hparse : Json.parseBytes Json.Tree.value (m.toJson time).pretty.toUTF8 =
      (Json.Tree.written (m.toJson time)).value := Json.parseBytes_pretty (by decide) (m.plain_toJson time) _
  unfold manifestOf
  dsimp only
  rw [if_neg (by simp [hfound]), bind_eq_ok]
  constructor
  · rintro ⟨bytes, hread, h⟩
    obtain ⟨hsize, rfl⟩ := (FileSystem.readWithin_iff hfound hfile).1 hread
    refine ⟨hsize, ?_⟩
    rw [hparse] at h
    split at h
    · next x hx =>
      obtain ⟨w, hw, rfl⟩ := Json.Rereads.value_eq_ok_iff.1 hx
      exact ⟨w, hw, (pure_eq_ok.1 h).symm⟩
    · cases h
  · rintro ⟨hsize, w, hread, rfl⟩
    refine ⟨_, (FileSystem.readWithin_iff hfound hfile).2 ⟨hsize, rfl⟩, ?_⟩
    rw [hparse, Json.Rereads.value_eq_ok_iff.2 ⟨w, hread, rfl⟩]
    rfl

/-- The licences that are read where the text of a manifest stands are those of the pictures it records. -/
theorem entries_iff (hw : fs.WellFormed) (hl : fs.Leads root)
    (hfile : fs.fileAt (fs.place (root.join exportManifest)) = some (m.toJson time).pretty.toUTF8) {es : List Entry} :
    entries fs root = .ok es ↔ (m.toJson time).pretty.toUTF8.size ≤ maxDocumentBytes ∧
      (∃ w, Json.Rereads (m.toJson time) w) ∧
      es = sortEntries ((m.backgrounds ++ m.portraits).map Entry.ofUsage) := by
  unfold entries
  rw [bind_eq_ok]
  constructor
  · rintro ⟨v, hv, h⟩
    obtain ⟨hsize, w, hread, rfl⟩ := (manifestOf_iff hw hl hfile).1 hv
    obtain rfl := pure_eq_ok.1 h
    refine ⟨hsize, ⟨w, hread⟩, ?_⟩
    rw [← map_records hread]
    simp
  · rintro ⟨hsize, ⟨w, hread⟩, rfl⟩
    refine ⟨_, (manifestOf_iff hw hl hfile).2 ⟨hsize, w, hread, rfl⟩, ?_⟩
    rw [← map_records hread]
    simp [pure, Except.pure]

end

theorem paths_sortEntries (es : List Entry) :
    (sortEntries es).map (·.path) = (OrderedMap.ofList (es.reverse.map fun e => (e.path, e))).keys := by
  rw [sortEntries, OrderedMap.values, OrderedMap.keys, List.map_map]
  refine List.map_congr_left fun p hp => ?_
  obtain ⟨e, -, rfl⟩ := List.mem_map.1 (OrderedMap.mem_of_mem_ofList hp)
  rfl

/-- No path has two licences. -/
theorem nodup_paths (es : List Entry) : ((sortEntries es).map (·.path)).Nodup := by
  rw [paths_sortEntries]
  exact OrderedMap.nodup_keys _

theorem mem_of_mem_sortEntries {es : List Entry} {e : Entry} (h : e ∈ sortEntries es) : e ∈ es := by
  obtain ⟨p, hp, rfl⟩ := List.mem_map.1 h
  obtain ⟨d, hd, rfl⟩ := List.mem_map.1 (OrderedMap.mem_of_mem_ofList hp)
  exact List.mem_reverse.1 hd

/-- Each path has one. -/
theorem mem_paths_iff {es : List Entry} {path : String} :
    path ∈ (sortEntries es).map (·.path) ↔ path ∈ es.map (·.path) := by
  rw [paths_sortEntries, OrderedMap.mem_keys_ofList]
  simp

/-- The paths and digests that are told are those of the pictures, where pictures with one path have one digest. -/
theorem mem_told_iff {us : List AssetUsage} (hsame : ∀ u ∈ us, ∀ v ∈ us, u.output = v.output → u.sha256 = v.sha256)
    {path sha : String} :
    (path, sha) ∈ (sortEntries (us.map Entry.ofUsage)).map (fun e => (e.path, e.sha256)) ↔
      ∃ u ∈ us, u.output = path ∧ u.sha256 = sha := by
  constructor
  · intro h
    obtain ⟨e, he, heq⟩ := List.mem_map.1 h
    obtain ⟨u, hu, rfl⟩ := List.mem_map.1 (mem_of_mem_sortEntries he)
    exact ⟨u, hu, Prod.mk.inj heq⟩
  · rintro ⟨u, hu, rfl, rfl⟩
    have hpath : u.output ∈ (sortEntries (us.map Entry.ofUsage)).map (·.path) := by
      rw [mem_paths_iff, List.map_map]
      exact List.mem_map_of_mem hu
    obtain ⟨e, he, heq⟩ := List.mem_map.1 hpath
    obtain ⟨v, hv, rfl⟩ := List.mem_map.1 (mem_of_mem_sortEntries he)
    exact List.mem_map.2 ⟨_, he, Prod.ext heq (hsame v hv u hu heq)⟩

end Legal

/-! ## Pictures of a tree -/

namespace Preparation

variable {fs fs' : FileSystem} {options : ExportOptions} {p : Preparation} {now : Timestamp} {a : Artifact}

/-- The files of a tree that have stamps, each with its stamp. -/
def Tree.stamped (p : Preparation) (t : Tree) (text : String) : List Artifact :=
  p.stamped (under t.dir Layout.script) Layout.script (t.script p).script ++ p.manifestFiles t.dir text

/-- The names on their paths below the tree. -/
def stampedNames : List (List String) :=
  [[gameDir, "script.rpy"], [gameDir, "script.rpy.provenance.json"], [exportManifest],
    ["export_manifest.json.provenance.json"]]

/-- They are in no directory of their own. -/
theorem stampedNames_apart : ∀ rel ∈ stampedNames, rel.head? ≠ some forksDir ∧ rel[1]? ≠ some imagesDir ∧
    rel[1]? ≠ some scenesDir ∧ rel ≠ [Layout.labelManifest] := by
  decide

theorem names_stamped (t : Tree) (text : String) :
    (t.stamped p text).map (fun a => names a.1) = stampedNames.map (names t.dir ++ ·) := by
  simp only [Tree.stamped, manifestFiles, Preparation.stamped, stamp_under, stampedNames, List.map_append,
    List.map_cons, List.map_nil, names_under, names_script.1, names_script.2, names_manifests.1, names_manifests.2.1]
  rfl

theorem names_of_mem_stamped {t : Tree} {text : String} (ha : a ∈ t.stamped p text) :
    ∃ rel ∈ stampedNames, names a.1 = names t.dir ++ rel := by
  have hmem : names a.1 ∈ (t.stamped p text).map fun a => names a.1 := List.mem_map_of_mem ha
  rw [names_stamped, List.mem_map] at hmem
  obtain ⟨rel, hrel, hnames⟩ := hmem
  exact ⟨rel, hrel, hnames.symm⟩

/-- The names on the path of a picture of a tree. -/
def Tree.pictureNames (t : Tree) (ns : List String) : List String := names t.dir ++ gameDir :: imagesDir :: ns

section
variable (hp : Settled fs options p)
include hp

/-- A file of the bundle is the label manifest, or belongs to a tree. -/
theorem tree_of_mem_files {text : String → ExportManifest → String} (ha : a ∈ p.files text) :
    a.1 = Layout.labelManifest ∨
      ∃ t ∈ p.trees options, a ∈ t.game p ∨ a ∈ p.manifestFiles t.dir (text t.dir t.manifest) := by
  simp only [files, List.mem_append, List.mem_flatMap, List.mem_singleton] at ha
  rcases ha with ((ha | ⟨f, hf, ha⟩) | rfl) | ha
  · rw [hp.master_eq] at ha
    exact .inr ⟨_, List.mem_cons_self, .inl ha⟩
  · obtain ⟨-, route, -, rfl⟩ := hp.mem_forks hf
    exact .inr ⟨_, List.mem_cons_of_mem _ (List.mem_map_of_mem hf), List.mem_append.1 ha⟩
  · exact .inl rfl
  · exact .inr ⟨_, List.mem_cons_self, .inr ha⟩

theorem names_dir {t : Tree} (ht : t ∈ p.trees options) :
    names t.dir = [] ∨ ∃ slug, names t.dir = [forksDir, slug] := by
  rcases isTree_of_mem hp ht with hd | ⟨slug, hs, hd⟩
  · exact .inl (by rw [hd]; rfl)
  · exact .inr ⟨slug, by rw [hd, names_fork hs]⟩

theorem nodup_dirs : ((p.trees options).map (·.dir)).Nodup := by
  have hforks : ((p.trees options).map (·.dir)) = "" :: p.forks.map fun f => Layout.fork f.1.slug := by
    simp [trees, Function.comp_def]
  have hslugs : (p.forks.map fun f => Layout.fork f.1.slug).Nodup := by
    have hmap := hp.slugs_nodup.map fun a b => (String.append_right_inj (forksDir ++ "/")).1
    rwa [List.map_map] at hmap
  rw [hforks, List.nodup_cons]
  refine ⟨fun hmem => ?_, hslugs⟩
  obtain ⟨f, -, hf⟩ := List.mem_map.1 hmem
  have hlength := congrArg (fun s => s.toList.length) hf
  simp [Layout.fork, forksDir] at hlength

/-- A path in a tree, beside its forks, is in no other tree. -/
theorem eq_of_names {t t' : Tree} (ht : t ∈ p.trees options) (ht' : t' ∈ p.trees options) {rel rel' : List String}
    (hrel : rel.head? ≠ some forksDir) (hrel' : rel'.head? ≠ some forksDir)
    (h : names t'.dir ++ rel' = names t.dir ++ rel) : t' = t ∧ rel' = rel := by
  have hdir : names t'.dir = names t.dir ∧ rel' = rel := by
    rcases names_dir hp ht with hd | ⟨slug, hd⟩ <;> rcases names_dir hp ht' with hd' | ⟨slug', hd'⟩ <;>
      rw [hd, hd'] at h ⊢
    · exact ⟨rfl, h⟩
    · rw [List.nil_append] at h
      exact absurd (congrArg List.head? h).symm hrel
    · rw [List.nil_append] at h
      exact absurd (congrArg List.head? h) hrel'
    · obtain ⟨hslug, hrest⟩ := List.cons.inj (List.cons.inj h).2
      exact ⟨by rw [hslug], hrest⟩
  refine ⟨List.inj_on_of_nodup_map (nodup_dirs hp) ht' ht ?_, hdir.2⟩
  have hjoin {t : Tree} (ht : t ∈ p.trees options) : Text.joinWith "/" (names t.dir) = t.dir := by
    rcases isTree_of_mem hp ht with hd | ⟨slug, hs, hd⟩
    · rw [hd]
      rfl
    · rw [hd]
      exact (clean_fork hs).2.2
  rw [← hjoin ht, ← hjoin ht', hdir.1]

theorem scripted_tree {t : Tree} (ht : t ∈ p.trees options) : Scripted (t.script p) := by
  have hmem : t.script p ∈ (p.trees options).map (·.script p) := List.mem_map_of_mem ht
  rw [hp.scripts_eq] at hmem
  rcases List.mem_cons.1 hmem with hscript | hscript
  · rw [hscript]
    exact hp.scripted_master
  · obtain ⟨f, hf, hscript⟩ := List.mem_map.1 hscript
    rw [← hscript]
    exact hp.scripted_fork hf

/-- The names on the path of a file of the bundle. In a tree it is a picture that the manifest records, a module, or a
stamped file or its stamp. -/
theorem names_of_mem_files {text : String → ExportManifest → String} (ha : a ∈ p.files text) :
    names a.1 = [Layout.labelManifest] ∨ ∃ t ∈ p.trees options, ∃ rel, names a.1 = names t.dir ++ rel ∧
      rel.head? ≠ some forksDir ∧
      ((∃ u ∈ t.records, rel = gameDir :: imagesDir :: names u.relative) ∨
        (∃ label, rel = [gameDir, scenesDir, moduleName label]) ∨
        rel ∈ stampedNames ∧ a ∈ t.stamped p (text t.dir t.manifest)) := by
  have hstamped {t : Tree} (ht : t ∈ p.trees options) (ha : a ∈ t.stamped p (text t.dir t.manifest)) :
      ∃ t ∈ p.trees options, ∃ rel, names a.1 = names t.dir ++ rel ∧ rel.head? ≠ some forksDir ∧
        ((∃ u ∈ t.records, rel = gameDir :: imagesDir :: names u.relative) ∨
          (∃ label, rel = [gameDir, scenesDir, moduleName label]) ∨
          rel ∈ stampedNames ∧ a ∈ t.stamped p (text t.dir t.manifest)) := by
    obtain ⟨rel, hrel, hnames⟩ := names_of_mem_stamped ha
    exact ⟨t, ht, rel, hnames, (stampedNames_apart rel hrel).1, .inr (.inr ⟨hrel, ha⟩)⟩
  rcases tree_of_mem_files hp ha with hlabels | ⟨t, ht, ha | ha⟩
  · exact .inl (by rw [hlabels, names_manifests.2.2])
  · have hs := scripted_tree hp ht
    have hhead (ns : List String) : (gameDir :: ns).head? ≠ some forksDir := by
      rw [List.head?_cons]
      decide
    simp only [Tree.game, gameTree, List.mem_append, List.mem_map] at ha
    rcases ha with (⟨e, he, rfl⟩ | ⟨m, hm, rfl⟩) | ha
    · obtain ⟨u, hu, rfl, halias⟩ := mem_images he
      refine .inr ⟨t, ht, _, names_under _ _, ?_, .inl ⟨u, (mem_records_iff hp ht).2 ⟨hu, halias⟩, names_image _⟩⟩
      rw [show names u.output = _ from names_image u.relative]
      exact hhead _
    · refine .inr ⟨t, ht, _, names_under _ _, ?_, .inr (.inl ⟨m.label, ?_⟩)⟩ <;>
        rw [hs.path_eq m hm, names_sceneModule (hs.named m hm)]
      exact hhead _
    · exact .inr (hstamped ht (List.mem_append_left _ ha))
  · exact .inr (hstamped ht (List.mem_append_right _ ha))

/-- What is put among the pictures of a tree is a picture that its manifest records. -/
theorem record_of_artifact {t : Tree} (ht : t ∈ p.trees options) {text : String → ExportManifest → String}
    (ha : a ∈ p.files text) {ns : List String} (hnames : names a.1 = t.pictureNames ns) :
    ∃ u ∈ t.records, names u.relative = ns := by
  rw [Tree.pictureNames] at hnames
  rcases names_of_mem_files hp ha with hlabels | ⟨t', ht', rel, hrel, hhead, hcases⟩
  · have hlength := congrArg List.length hnames
    rw [hlabels] at hlength
    simp only [List.length_append, List.length_cons, List.length_nil] at hlength
    omega
  · have hgame : (gameDir :: imagesDir :: ns).head? ≠ some forksDir := by simp [gameDir, forksDir]
    obtain ⟨rfl, rfl⟩ := eq_of_names hp ht ht' hgame hhead (hrel.symm.trans hnames)
    rcases hcases with ⟨u, hu, heq⟩ | ⟨label, heq⟩ | ⟨hmem, -⟩
    · exact ⟨u, hu, (List.cons.inj (List.cons.inj heq).2).2.symm⟩
    · exact absurd (List.cons.inj (List.cons.inj heq).2).1 (by decide)
    · exact absurd rfl (stampedNames_apart _ hmem).2.1

end

theorem apart_of_clean (hp : Settled fs options p) (hw : fs.WellFormed) (hc : p.CleanPictures)
    (hout : Outside fs options) : Apart fs options p :=
  hout.apart hp hw fun _ hu => (clean_relative hp hw hc hu).inBundle.relative

namespace Delivered

section
variable (h : Delivered fs fs' options now p) (hc : p.CleanPictures) {t : Tree} (ht : t ∈ p.trees options)
include h hc ht

/-- The manifest of a tree is there as it was written. -/
theorem fileAt_treeManifest :
    fs'.fileAt (fs.place (options.output.join (under t.dir exportManifest))) =
      some (settledText fs options now t.dir t.manifest).toUTF8 := by
  have ha : (under t.dir exportManifest, Content.text (settledText fs options now t.dir t.manifest)) ∈
      p.files (settledText fs options now) :=
    mem_files_of_tree h.settled ht (List.mem_append_right _ (by simp [manifestFiles, stamped]))
  obtain ⟨before, after, hsplit⟩ := List.append_of_mem ha
  exact (h.fileAt_of_clean hc ha).trans (h.overlay_of_clean hc hsplit)

variable (hapart : Apart fs options p)
include hapart

/-- A picture that is recorded is in the tree, with its digest. -/
theorem fileAt_record {u : AssetUsage} (hu : u ∈ t.records) :
    ∃ c, fs'.fileAt (fs.place options.output ++ t.pictureNames (names u.relative)) = some c ∧
      u.sha256 = Hash.sha256Hex c := by
  obtain ⟨husages, ha⟩ := record_copied h.settled h.wellFormed ht hu (settledText fs options now)
  obtain ⟨c, hfile, hsha, -⟩ := (h.settled.origin h.wellFormed husages).file
  refine ⟨c, ?_, hsha⟩
  have hplace : fs.place (options.output.join (under t.dir u.output)) =
      fs.place options.output ++ t.pictureNames (names u.relative) := by
    rw [Tree.pictureNames, place_inBundle (inBundle_files h.settled h.wellFormed ha), names_under, AssetUsage.output,
      names_image]
  rw [← hplace]
  exact (h.fileAt_artifact hc hapart ha).trans hfile

/-- A file among the pictures of a tree that is not left over is recorded, with its digest. -/
theorem record_of_fileAt (hplain : PlainBelow fs options) {ns : List String} {c : ByteArray}
    (hfile : fs'.fileAt (fs.place options.output ++ t.pictureNames ns) = some c)
    (hr : Sink.walkedName (t.pictureNames ns) ∈ p.paths) :
    ∃ u ∈ t.records, names u.relative = ns ∧ u.sha256 = Hash.sha256Hex c := by
  have hplace : ∃ a ∈ p.files (settledText fs options now), fs.place (options.output.join a.1) =
      fs.place options.output ++ t.pictureNames ns := by
    by_contra hno
    have hold := h.overlay_eq hfile
    rw [overlay_of_ne fun a ha heq => hno ⟨a, ha, heq⟩] at hold
    exact hno (exists_artifact_at h.wellFormed hplain (by rw [hold]; rfl) hr _)
  obtain ⟨a, ha, heq⟩ := hplace
  rw [place_inBundle (inBundle_files h.settled h.wellFormed ha)] at heq
  obtain ⟨u, hu, rfl⟩ := record_of_artifact h.settled ht ha (List.append_cancel_left heq)
  obtain ⟨d, hd, hsha⟩ := h.fileAt_record hc ht hapart hu
  obtain rfl := Option.some.inj (hfile.symm.trans hd)
  exact ⟨u, hu, rfl, hsha⟩

end

end Delivered

end Preparation

end StoryPress
