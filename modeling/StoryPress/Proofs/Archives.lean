import Mathlib.Data.List.ProdSigma
import StoryPress.Proofs.Written
import StoryPress.Publish.Package

/-!
# Archives of one run

A run makes an archive for each tree and each target. Its name joins the slug of the project, that of the fork and
the name of the target with hyphens. Slugs of forks have no hyphen, but names of targets may have some.

* `stem_main_eq_fork_iff`: the only way for two archives to get one name;
* `Packaged`: what a real run does for some results, kept from each archive to the next (`Packaged.cons`);
* `packaged_of_run`: a run does so for each tree and each target, in order.
-/

namespace StoryPress

open Layout

namespace Package

/-! ## Names -/

/-- What an archive is for: a fork or the bundle, and a target. -/
abbrev Key := Option String × String

/-- The slug of a tree of the project with a slug. -/
def treeSlug (slug : String) : Option String → String
  | none => slug
  | some fork => slug ++ "-" ++ fork

/-- The name of an archive without its extension. -/
def stem (slug : String) (k : Key) : String := treeSlug slug k.1 ++ "-" ++ k.2

theorem toList_stem_main (slug target : String) :
    (stem slug (none, target)).toList = slug.toList ++ '-' :: target.toList := by
  simp [stem, treeSlug]

theorem toList_stem_fork (slug fork target : String) :
    (stem slug (some fork, target)).toList = slug.toList ++ '-' :: (fork.toList ++ '-' :: target.toList) := by
  simp [stem, treeSlug]

theorem stem_main_injective {slug t t' : String} (h : stem slug (none, t) = stem slug (none, t')) : t = t' := by
  have hlist := congrArg String.toList h
  rw [toList_stem_main, toList_stem_main] at hlist
  exact String.toList_injective (List.cons.inj (List.append_cancel_left hlist)).2

/-- A slug without a hyphen ends at the first hyphen after it. -/
theorem stem_fork_injective {slug f f' t t' : String} (hf : '-' ∉ f.toList) (hf' : '-' ∉ f'.toList)
    (h : stem slug (some f, t) = stem slug (some f', t')) : f = f' ∧ t = t' := by
  have hlist := congrArg String.toList h
  rw [toList_stem_fork, toList_stem_fork] at hlist
  have hcut := congrArg (Text.cutFirst? '-') (List.cons.inj (List.append_cancel_left hlist)).2
  rw [Text.cutFirst?_append hf, Text.cutFirst?_append hf'] at hcut
  obtain ⟨hfork, htarget⟩ := Prod.mk.inj (Option.some.inj hcut)
  exact ⟨String.toList_injective hfork, String.toList_injective htarget⟩

/-- The bundle and a fork share the name of an archive if the target of the one is called like the fork and the
target of the other. -/
theorem stem_main_eq_fork_iff {slug f t t' : String} :
    stem slug (none, t) = stem slug (some f, t') ↔ t = f ++ "-" ++ t' := by
  rw [← String.toList_inj, ← String.toList_inj, toList_stem_main, toList_stem_fork, List.append_cancel_left_eq,
    List.cons_inj_right]
  simp

/-- A file of the archive for a key: the stem and an ending, in the dist directory. -/
def file (o : PackageOptions) (k : Key) (ending : String) : Path := o.dist.join (stem o.slug k ++ ending)

/-- The endings of the archive, of its manifest and licences, and of the two stamps. -/
def endings : List String :=
  [".zip", ".publish_manifest.json", ".license_manifest.json", stamp ".publish_manifest.json", stamp ".zip"]

theorem ends_endings : ∀ e ∈ endings,
    '/' ∉ e.toList ∧ (e.toList.getLast? = some 'p' ∨ e.toList.getLast? = some 'n') := by
  decide

/-- Nothing beside an archive ends like it. -/
theorem ends_tail : ∀ e ∈ endings.tail, e.toList.getLast? = some 'n' := by decide

section
variable {slug : String} {k k' : Key} {e : String}

theorem getLast?_append_ending (he : e ∈ endings) (x : String) :
    (x ++ e).toList.getLast? = e.toList.getLast? := by
  rw [String.toList_append, List.getLast?_append]
  rcases (ends_endings e he).2 with hl | hl <;> rw [hl] <;> rfl

/-- What ends like a file of an archive names a file. -/
theorem not_filler_append_ending (he : e ∈ endings) (x : String) :
    x ++ e ≠ ".." ∧ Path.isFiller (x ++ e) = false := by
  have hne (s : String) (hp : s.toList.getLast? ≠ some 'p') (hn : s.toList.getLast? ≠ some 'n') : x ++ e ≠ s := by
    rintro rfl
    rw [getLast?_append_ending he] at hp hn
    exact (ends_endings e he).2.elim hp hn
  refine ⟨hne _ (by decide) (by decide), ?_⟩
  simp [Path.isFiller, hne "" (by decide) (by decide), hne "." (by decide) (by decide)]

theorem isName_stem (h : '/' ∉ (stem slug k).toList) (he : e ∈ endings) : Path.IsName (stem slug k ++ e) := by
  obtain ⟨hup, hfiller⟩ := not_filler_append_ending he (stem slug k)
  simp only [Path.isFiller, Bool.or_eq_false_iff, beq_eq_false_iff_ne] at hfiller
  refine ⟨hfiller.1, hfiller.2, hup, ?_⟩
  rw [String.toList_append, List.mem_append, not_or]
  exact ⟨h, (ends_endings e he).1⟩

theorem archive_ne_of_tail (he : e ∈ endings.tail) : stem slug k ++ ".zip" ≠ stem slug k' ++ e := by
  intro heq
  have hlast := congrArg (fun s : String => s.toList.getLast?) heq
  rw [getLast?_append_ending (by decide), getLast?_append_ending (List.mem_of_mem_tail he), ends_tail e he] at hlast
  exact absurd hlast (by decide)

end

section
variable {o : PackageOptions} {k k' : Key} {e : String}

theorem place_file (h : '/' ∉ (stem o.slug k).toList) (he : e ∈ endings) (fs : FileSystem) :
    fs.place (file o k e) = fs.place o.dist ++ [stem o.slug k ++ e] := by
  have hname := isName_stem h he
  have hplace := FileSystem.place_join_names (List.cons_ne_nil _ []) (by simpa using hname) fs o.dist
  simpa [Text.joinWith, file] using hplace

theorem file_text_ne (h : '/' ∉ (stem o.slug k).toList) (he : e ∈ endings) : (file o k e).text ≠ "" := by
  have hname := isName_stem h he
  have hne := FileSystem.join_text_ne_empty (List.cons_ne_nil _ []) (by simpa using hname) o.dist
  simpa [Text.joinWith, file] using hne

theorem stem_eq_of_place (h : '/' ∉ (stem o.slug k).toList) (h' : '/' ∉ (stem o.slug k').toList)
    (he : e ∈ endings) {fs : FileSystem} (heq : fs.place (file o k e) = fs.place (file o k' e)) :
    stem o.slug k = stem o.slug k' := by
  rw [place_file h he, place_file h' he] at heq
  exact (String.append_left_inj e).1 (List.cons.inj (List.append_cancel_left heq)).1

/-- Two archives have one path only by sharing a name. -/
theorem file_eq_iff (h : '/' ∉ (stem o.slug k).toList) (h' : '/' ∉ (stem o.slug k').toList) (he : e ∈ endings) :
    file o k e = file o k' e ↔ stem o.slug k = stem o.slug k' := by
  constructor
  · exact fun heq => stem_eq_of_place h h' he (congrArg (FileSystem.place {}) heq)
  · intro heq
    rw [file, file, heq]

end

/-! ## One archive -/

/-- What the parts of an archive come to in the dist directory. -/
def Parts.artifacts (p : Parts) : List Preparation.Artifact :=
  let manifest := p.manifest.toUTF8
  [(p.archiveName, .bytes p.archive), (p.manifestName, .text p.manifest), (p.licensesName, .text p.licenses),
    (stamp p.manifestName, .text (Stamp.ofBytes p.manifestName manifest p.inputs).text),
    (stamp p.archiveName, .text (Stamp.ofBytes p.archiveName p.archive
      [StampInput.ofBytes "publish_manifest" p.manifestName manifest]).text)]

theorem Parts.archiveName_eq (p : Parts) : p.archiveName = p.stem ++ ".zip" := by
  rw [archiveName, String.append_assoc]
  rfl

theorem Parts.manifestName_eq (p : Parts) : p.manifestName = p.stem ++ ".publish_manifest.json" := by
  rw [manifestName, String.append_assoc]
  rfl

theorem Parts.paths_artifacts (p : Parts) : p.artifacts.map (·.1) = endings.map (p.stem ++ ·) := by
  simp [artifacts, endings, archiveName_eq, manifestName_eq, licensesName, stamp, String.append_assoc]

/-- An artifact is named by an ending. -/
theorem Parts.exists_ending {p : Parts} {a : Preparation.Artifact} (ha : a ∈ p.artifacts) :
    ∃ e ∈ endings, p.stem ++ e = a.1 := by
  have hpath := List.mem_map_of_mem (f := (·.1)) ha
  rw [p.paths_artifacts] at hpath
  exact List.mem_map.1 hpath

theorem Parts.mem_artifacts (p : Parts) :
    (p.archiveName, Content.bytes p.archive) ∈ p.artifacts ∧ (p.manifestName, Content.text p.manifest) ∈ p.artifacts ∧
      (p.licensesName, Content.text p.licenses) ∈ p.artifacts := by
  simp [artifacts]

/-- The files of an archive lie in one directory, whatever its name is made of. -/
theorem places_endings (fs : FileSystem) (dist : Path) (stem : String) :
    ∃ l last, ∀ e ∈ endings, fs.place (dist.join (stem ++ e)) = l ++ [last ++ e] := by
  obtain ⟨front, last, -, hpieces⟩ := Text.pieces_append_ending stem
  have hnames : ∀ e ∈ endings, (⟨stem ++ e⟩ : Path).names =
      (front.filter fun s => !Path.isFiller s) ++ [last ++ e] := by
    intro e he
    rw [Path.names, Path.segments, hpieces e (ends_endings e he).1]
    simp [(not_filler_append_ending he last).2]
  have hroot : ∀ e ∈ endings, Path.startsAtRoot (stem ++ e) = Path.startsAtRoot stem := by
    intro e he
    unfold Path.startsAtRoot
    rw [String.toList_append]
    cases stem.toList with
    | nil =>
      have hslash := (ends_endings e he).1
      cases hlist : e.toList with
      | nil => rfl
      | cons c cs =>
        have hc : c ≠ '/' := fun hc => hslash (by simp [hlist, hc])
        simp [hc]
    | cons c cs => rfl
  cases hstem : Path.startsAtRoot stem with
  | true =>
    refine ⟨(front.filter fun s => !Path.isFiller s).foldl FileSystem.enter [], last, fun e he => ?_⟩
    have habs : (⟨stem ++ e⟩ : Path).isAbsolute = true := (hroot e he).trans hstem
    rw [Path.join_of_startsAtRoot habs, FileSystem.place, FileSystem.origin, if_pos habs, hnames e he,
      List.foldl_append]
    simp [FileSystem.enter, (not_filler_append_ending he last).1]
  | false =>
    refine ⟨(front.filter fun s => !Path.isFiller s).foldl FileSystem.enter (fs.place dist), last, fun e he => ?_⟩
    rw [FileSystem.place_join ((hroot e he).trans hstem), hnames e he, List.foldl_append]
    simp [FileSystem.enter, (not_filler_append_ending he last).1]

/-- No file of an archive takes the place of another one. -/
theorem nodup_places (fs : FileSystem) (dist : Path) (p : Parts) :
    (p.artifacts.map fun a => fs.place (dist.join a.1)).Nodup := by
  obtain ⟨l, last, hplace⟩ := places_endings fs dist p.stem
  have hmap : (p.artifacts.map fun a => fs.place (dist.join a.1)) = endings.map fun e => l ++ [last ++ e] := by
    calc (p.artifacts.map fun a => fs.place (dist.join a.1))
      _ = (p.artifacts.map (·.1)).map fun path => fs.place (dist.join path) := by rw [List.map_map]; rfl
      _ = endings.map fun e => fs.place (dist.join (p.stem ++ e)) := by rw [p.paths_artifacts, List.map_map]; rfl
      _ = endings.map fun e => l ++ [last ++ e] := List.map_congr_left hplace
  rw [hmap]
  refine List.Nodup.map ?_ (by decide)
  intro e e' heq
  exact (String.append_right_inj last).1 (List.cons.inj (List.append_cancel_left heq)).1

end Package

def PackageResult.key (r : PackageResult) : Package.Key := (r.fork, r.target)

namespace Package

/-- Where a result says that its files are. -/
structure Told (o : PackageOptions) (r : PackageResult) : Prop where
  plain : '/' ∉ (stem o.slug r.key).toList
  archive_eq : r.archive = file o r.key ".zip"
  manifest_eq : r.manifest = file o r.key ".publish_manifest.json"
  licenses_eq : r.licenses = file o r.key ".license_manifest.json"

/-- At the path of the archive is a file with the checksum and the size of the result. -/
def Holds (fs : FileSystem) (r : PackageResult) : Prop :=
  ∃ bytes, fs.read r.archive = .ok bytes ∧ Hash.sha256Hex bytes = r.checksum ∧ bytes.size = r.size

section
variable {fs : FileSystem} {o : PackageOptions} {shared : Shared} {s : Source} {t : CheckedTarget} {w w' : Workbench}
  {r : PackageResult}

theorem stem_of_build {p : Parts} (h : build fs o shared s t = .ok p) : p.stem = s.slug ++ "-" ++ t.name := by
  obtain ⟨⟨archive, files⟩, -, h⟩ := bind_eq_ok.1 h
  obtain ⟨entries, -, h⟩ := bind_eq_ok.1 h
  obtain ⟨inputs, -, h⟩ := bind_eq_ok.1 h
  exact pure_eq_ok.1 h ▸ rfl

/-- Packaging a tree for a target builds the parts of an archive and puts them one after the other, and in a real run
stamps; the result tells where they are. -/
theorem runs_of_packageOne (h : Runs (packageOne o shared s t) w r w') :
    ∃ p w₁ w₂ w₃, build w.files o shared s t = .ok p ∧
      Runs (Sink.put p.archiveName (.bytes p.archive)) ⟨w.files, { root := o.dist, dryRun := o.dryRun }⟩ r.archive w₁ ∧
      Runs (Sink.put p.manifestName (.text p.manifest)) w₁ r.manifest w₂ ∧
      Runs (Sink.put p.licensesName (.text p.licenses)) w₂ r.licenses w₃ ∧
      ((o.dryRun = true ∧ w' = w₃) ∨ (o.dryRun = false ∧ Runs (putStamps p) w₃ r.stamps w')) ∧
      r.key = (s.fork, t.name) ∧ r.checksum = Hash.sha256Hex p.archive ∧ r.size = p.archive.size := by
  unfold packageOne at h
  obtain ⟨⟨⟩, w₀, hu, h⟩ := Runs.bind_iff.1 h
  obtain rfl := Runs.updating_iff.1 hu
  obtain ⟨p, w₀, hr, h⟩ := Runs.bind_iff.1 h
  obtain ⟨hbuild, rfl⟩ := Runs.reading_iff.1 hr
  obtain ⟨archive, w₁, harchive, h⟩ := Runs.bind_iff.1 h
  obtain ⟨manifest, w₂, hmanifest, h⟩ := Runs.bind_iff.1 h
  obtain ⟨licenses, w₃, hlicenses, h⟩ := Runs.bind_iff.1 h
  refine ⟨p, w₁, w₂, w₃, hbuild, ?_⟩
  dsimp only at h
  split at h
  · next hdry =>
    obtain ⟨stamps, w₄, hstamps, h⟩ := Runs.bind_iff.1 h
    obtain ⟨-, rfl⟩ := Runs.pure_iff.1 hstamps
    obtain ⟨w₅, w₆, hget, h⟩ := Runs.bind_iff.1 h
    obtain ⟨rfl, rfl⟩ := Runs.get_iff.1 hget
    obtain ⟨rfl, rfl⟩ := Runs.pure_iff.1 h
    exact ⟨harchive, hmanifest, hlicenses, .inl ⟨hdry, rfl⟩, rfl, rfl, rfl⟩
  · next hreal =>
    obtain ⟨stamps, w₄, hstamps, h⟩ := Runs.bind_iff.1 h
    obtain ⟨w₅, w₆, hget, h⟩ := Runs.bind_iff.1 h
    obtain ⟨rfl, rfl⟩ := Runs.get_iff.1 hget
    obtain ⟨rfl, rfl⟩ := Runs.pure_iff.1 h
    exact ⟨harchive, hmanifest, hlicenses, .inr ⟨by simpa using hreal, hstamps⟩, rfl, rfl, rfl⟩

/-- A real run puts the parts of an archive, and tells where they are and the digest and the size of the archive. -/
theorem written_of_packageOne (hreal : o.dryRun = false) (h : Runs (packageOne o shared s t) w r w') :
    ∃ p, build w.files o shared s t = .ok p ∧ Written w.files o.dist p.artifacts w' ∧
      r.key = (s.fork, t.name) ∧ r.archive = o.dist.join p.archiveName ∧ r.manifest = o.dist.join p.manifestName ∧
      r.licenses = o.dist.join p.licensesName ∧ r.checksum = Hash.sha256Hex p.archive ∧
      r.size = p.archive.size ∧
      r.stamps = [o.dist.join (stamp p.manifestName), o.dist.join (stamp p.archiveName)] := by
  obtain ⟨p, w₁, w₂, w₃, hbuild, harchive, hmanifest, hlicenses, hstamps, hkey, hchecksum, hsize⟩ :=
    runs_of_packageOne h
  rcases hstamps with ⟨hdry, -⟩ | ⟨-, hstamps⟩
  · cases hreal.symm.trans hdry
  rw [hreal] at harchive
  obtain ⟨first, w₄, hfirst, hstamps⟩ := Runs.bind_iff.1 hstamps
  obtain ⟨second, w₅, hsecond, hstamps⟩ := Runs.bind_iff.1 hstamps
  obtain ⟨hpaths, rfl⟩ := Runs.pure_iff.1 hstamps
  have hstart := Written.start w.files o.dist
  have h₁ := hstart.put harchive
  have h₂ := h₁.put hmanifest
  have h₃ := h₂.put hlicenses
  have h₄ := h₃.put hfirst
  exact ⟨p, hbuild, h₄.put hsecond, hkey, hstart.target_eq harchive, h₁.target_eq hmanifest,
    h₂.target_eq hlicenses, hchecksum, hsize, by rw [← hpaths, h₃.target_eq hfirst, h₄.target_eq hsecond]⟩

/-- Nothing beside an archive is put where an archive can be. -/
theorem place_ne_of_tail {p : Parts} {k k' : Key} (hstem : p.stem = stem o.slug k)
    (hk : '/' ∉ (stem o.slug k).toList) (hk' : '/' ∉ (stem o.slug k').toList) {a : Preparation.Artifact}
    (ha : a ∈ p.artifacts.tail) (fs : FileSystem) :
    fs.place (o.dist.join a.1) ≠ fs.place (file o k' ".zip") := by
  have hpath : a.1 ∈ (endings.map (p.stem ++ ·)).tail := by
    rw [← p.paths_artifacts, ← List.map_tail]
    exact List.mem_map_of_mem ha
  rw [← List.map_tail, List.mem_map] at hpath
  obtain ⟨e, he, hpath⟩ := hpath
  rw [← hpath, hstem, ← file, place_file hk (List.mem_of_mem_tail he), place_file hk' (by decide)]
  intro heq
  exact archive_ne_of_tail he (List.cons.inj (List.append_cancel_left heq)).1.symm

section
variable {p : Parts} (hw : Written fs o.dist p.artifacts w') (htold : Told o r)
  (hstem : p.stem = stem o.slug r.key)
include hw htold hstem

/-- The parts of an archive take the place of no other archive. -/
theorem fileAt_of_written {k : Key} (hk : '/' ∉ (stem o.slug k).toList) (hne : r.archive ≠ file o k ".zip") :
    w'.files.fileAt (fs.place (file o k ".zip")) = fs.fileAt (fs.place (file o k ".zip")) := by
  rw [hw.fileAt_eq]
  apply overlay_of_ne
  intro a ha heq
  rcases List.mem_cons.1 ha with rfl | ha
  · rw [p.archiveName_eq, hstem, ← file] at heq
    apply hne
    rw [htold.archive_eq]
    exact (file_eq_iff htold.plain hk (by decide)).2 (stem_eq_of_place htold.plain hk (by decide) heq)
  · exact place_ne_of_tail hstem htold.plain hk ha fs heq

theorem holds_of_written (hchecksum : r.checksum = Hash.sha256Hex p.archive) (hsize : r.size = p.archive.size) :
    Holds w'.files r := by
  have harchive : r.archive = o.dist.join p.archiveName := by rw [htold.archive_eq, p.archiveName_eq, hstem, file]
  have hlast : ∀ b ∈ p.artifacts.tail, fs.place (o.dist.join b.1) ≠ fs.place (o.dist.join p.archiveName) := by
    rw [← harchive, htold.archive_eq]
    exact fun b hb => place_ne_of_tail hstem htold.plain htold.plain hb fs
  have hfile : w'.files.fileAt (fs.place r.archive) = some p.archive := by
    have hfirst : p.artifacts = [] ++ (p.archiveName, .bytes p.archive) :: p.artifacts.tail := rfl
    rw [hw.fileAt_eq, harchive, hfirst, overlay_of_last (a := (p.archiveName, .bytes p.archive)) hlast]
    rfl
  have hleads := hw.leads (p.archiveName, .bytes p.archive) List.mem_cons_self
  refine ⟨p.archive, FileSystem.read_eq_ok_iff.2 ⟨?_, ?_, ?_⟩, hchecksum.symm, hsize.symm⟩
  · rw [htold.archive_eq]
    exact file_text_ne htold.plain (by decide)
  · rw [harchive]
    exact hleads
  · rw [hw.extends_files.place_eq, hfile]

end

end

/-! ## A run of archives -/

/-- What a real run does for some results: it leaves the archive of each that is the last with its path, and no
other archive is touched. -/
structure Packaged (o : PackageOptions) (fs fs' : FileSystem) (rs : List PackageResult) : Prop where
  told : ∀ r ∈ rs, Told o r
  extends_files : fs.Extends fs'
  frame : ∀ k, '/' ∉ (stem o.slug k).toList → (∀ r ∈ rs, r.archive ≠ file o k ".zip") →
    fs'.fileAt (fs.place (file o k ".zip")) = fs.fileAt (fs.place (file o k ".zip"))
  held : ∀ before r after, rs = before ++ r :: after → (∀ r' ∈ after, r'.archive ≠ r.archive) → Holds fs' r

theorem Holds.of_extends {fs fs' : FileSystem} {r : PackageResult} (h : Holds fs r) (he : fs.Extends fs')
    (hsame : fs'.fileAt (fs.place r.archive) = fs.fileAt (fs.place r.archive)) : Holds fs' r := by
  obtain ⟨bytes, hread, hdigest⟩ := h
  obtain ⟨hne, hleads, hfile⟩ := FileSystem.read_eq_ok_iff.1 hread
  refine ⟨bytes, FileSystem.read_eq_ok_iff.2 ⟨hne, he.leads hleads, ?_⟩, hdigest⟩
  rw [he.place_eq, hsame, hfile]

namespace Packaged

variable {o : PackageOptions} {fs mid fs' : FileSystem} {r : PackageResult} {rs : List PackageResult}

theorem nil (o : PackageOptions) (fs : FileSystem) : Packaged o fs fs [] :=
  ⟨by simp, .refl fs, fun _ _ _ => rfl, by simp⟩

/-- An archive stays if none of the later ones has its path. -/
theorem cons (h : Packaged o fs mid [r]) (hrest : Packaged o mid fs' rs) : Packaged o fs fs' (r :: rs) := by
  have hr : Told o r := h.told r (by simp)
  constructor
  · intro r' hr'
    rcases List.mem_cons.1 hr' with rfl | hr'
    · exact hr
    · exact hrest.told r' hr'
  · exact h.extends_files.trans hrest.extends_files
  · intro k hk hne
    have hfirst := h.frame k hk fun r' hr' => hne r' (by simp [List.mem_singleton.1 hr'])
    have hlater := hrest.frame k hk fun r' hr' => hne r' (by simp [hr'])
    rw [h.extends_files.place_eq] at hlater
    rw [hlater, hfirst]
  · intro before r' after heq hlast
    cases before with
    | nil =>
      obtain ⟨rfl, rfl⟩ := List.cons.inj heq
      have hhere : Holds mid r := h.held [] r [] rfl (by simp)
      apply hhere.of_extends hrest.extends_files
      rw [hr.archive_eq] at hlast ⊢
      exact hrest.frame r.key hr.plain hlast
    | cons r₀ before =>
      obtain ⟨-, heq⟩ := List.cons.inj heq
      exact hrest.held before r' after heq hlast

end Packaged

section
variable {o : PackageOptions} {shared : Shared} {w w' : Workbench}

/-- A tree for a target, with the slug that its fork gives it and without a slash in the name of its archive. -/
structure Plain (o : PackageOptions) (s : Source) (t : CheckedTarget) : Prop where
  slug_eq : s.slug = treeSlug o.slug s.fork
  no_slash : '/' ∉ (stem o.slug (s.fork, t.name)).toList

theorem packaged_of_packageOne (hreal : o.dryRun = false) {s : Source} {t : CheckedTarget} (hp : Plain o s t)
    {r : PackageResult} (h : Runs (packageOne o shared s t) w r w') :
    r.key = (s.fork, t.name) ∧ Packaged o w.files w'.files [r] := by
  obtain ⟨p, hbuild, hw, hkey, harchive, hmanifest, hlicenses, hchecksum, hsize, -⟩ := written_of_packageOne hreal h
  have hstem : p.stem = stem o.slug r.key := by
    rw [stem_of_build hbuild, hkey, hp.slug_eq]
    rfl
  have htold : Told o r := by
    refine ⟨hkey ▸ hp.no_slash, ?_, ?_, ?_⟩
    · rw [harchive, p.archiveName_eq, hstem, file]
    · rw [hmanifest, p.manifestName_eq, hstem, file]
    · rw [hlicenses, Parts.licensesName, hstem, file]
  refine ⟨hkey, ?_, hw.extends_files, ?_, ?_⟩
  · intro r' hr'
    exact List.mem_singleton.1 hr' ▸ htold
  · intro k hk hne
    exact fileAt_of_written hw htold hstem hk (hne r (List.mem_singleton.2 rfl))
  · intro before r' after hsplit _
    have hmem : r' ∈ [r] := hsplit ▸ List.mem_append_right before List.mem_cons_self
    rw [List.mem_singleton.1 hmem]
    exact holds_of_written hw htold hstem hchecksum hsize

/-- A result is for the tree and the target of its archive. -/
theorem key_of_packageOne {s : Source} {t : CheckedTarget} {r : PackageResult}
    (h : Runs (packageOne o shared s t) w r w') : r.key = (s.fork, t.name) := by
  obtain ⟨p, w₁, w₂, w₃, -, -, -, -, -, hkey, -⟩ := runs_of_packageOne h
  exact hkey

theorem keys_of_runs {jobs : List (Source × CheckedTarget)} {rs : List PackageResult}
    (h : Runs (jobs.mapM fun j => packageOne o shared j.1 j.2) w rs w') :
    rs.map (·.key) = jobs.map fun j => (j.1.fork, j.2.name) := by
  induction jobs generalizing w rs with
  | nil =>
    obtain ⟨rfl, -⟩ := Runs.mapM_nil_iff.1 h
    rfl
  | cons j jobs ih =>
    obtain ⟨r, w₁, rs₁, hone, hrest, rfl⟩ := Runs.mapM_cons_iff.1 h
    rw [List.map_cons, List.map_cons, key_of_packageOne hone, ih hrest]

/-- A real run packages each tree for each target, in order. -/
theorem packaged_of_runs (hreal : o.dryRun = false) {jobs : List (Source × CheckedTarget)}
    (hp : ∀ j ∈ jobs, Plain o j.1 j.2) {rs : List PackageResult}
    (h : Runs (jobs.mapM fun j => packageOne o shared j.1 j.2) w rs w') :
    rs.map (·.key) = jobs.map (fun j => (j.1.fork, j.2.name)) ∧ Packaged o w.files w'.files rs := by
  induction jobs generalizing w rs with
  | nil =>
    obtain ⟨rfl, rfl⟩ := Runs.mapM_nil_iff.1 h
    exact ⟨rfl, .nil o w.files⟩
  | cons j jobs ih =>
    obtain ⟨r, w₁, rs₁, hone, hrest, rfl⟩ := Runs.mapM_cons_iff.1 h
    obtain ⟨hkey, hfirst⟩ := packaged_of_packageOne hreal (hp j (by simp)) hone
    obtain ⟨hkeys, hlater⟩ := ih (fun i hi => hp i (by simp [hi])) hrest
    exact ⟨by rw [List.map_cons, List.map_cons, hkey, hkeys], hfirst.cons hlater⟩

end

/-! ## Trees and targets -/

/-- The slugs of the forks that a run packages. -/
def forkSlugs (fs : FileSystem) (o : PackageOptions) : List String :=
  match o.forks, recordedForks fs o.exportRoot with
  | true, .ok forks => forks.map (·.slug)
  | _, _ => []

section
variable {fs fs' : FileSystem} {o : PackageOptions}

theorem names_of_checkTargets {targets : List PublishTarget} {checked : List CheckedTarget}
    (h : checkTargets targets = .ok checked) : checked.map (·.name) = targets.map (·.name) := by
  unfold checkTargets at h
  split at h
  · cases h
  · refine map_eq_of_mapM ?_ h
    intro t c hc
    unfold checkTarget at hc
    split at hc
    · obtain ⟨platforms, -, hc⟩ := bind_eq_ok.1 hc
      exact pure_eq_ok.1 hc ▸ rfl
    · cases hc

/-- The tree of a fork, or of the bundle. -/
def treeOf (o : PackageOptions) : Option String → Source
  | none => ⟨none, o.slug, o.exportRoot⟩
  | some fork => ⟨some fork, o.slug ++ "-" ++ fork, o.exportRoot.join (Layout.fork fork)⟩

@[simp] theorem fork_treeOf (o : PackageOptions) (fork : Option String) : (treeOf o fork).fork = fork := by
  cases fork <;> rfl

@[simp] theorem slug_treeOf (o : PackageOptions) (fork : Option String) :
    (treeOf o fork).slug = treeSlug o.slug fork := by
  cases fork <;> rfl

theorem forkSource_eq_ok {d : ForkDescriptor} {s : Source} (h : forkSource fs o d = .ok s) :
    s = treeOf o (some d.slug) ∧ Naming.isSafeComponent d.slug = true := by
  unfold forkSource at h
  split at h
  · cases h
  · next hplaced =>
    simp only [Bool.or_eq_true, Bool.not_eq_true', not_or, Bool.not_eq_false, decide_eq_true_eq, ne_eq,
      Classical.not_not] at hplaced
    obtain ⟨hsafe, hpath⟩ := hplaced
    dsimp only at h
    split at h
    · obtain rfl := Except.ok.inj h
      exact ⟨by rw [treeOf, hpath], hsafe⟩
    · cases h

/-- The trees are the bundle and the forks that are told, and these have safe slugs. -/
theorem sources_eq_ok {ss : List Source} (h : sources fs o = .ok ss) :
    ss = (none :: (forkSlugs fs o).map some).map (treeOf o) ∧
      ∀ f ∈ forkSlugs fs o, Naming.isSafeComponent f = true := by
  unfold sources at h
  dsimp only at h
  split at h
  · cases h
  · split at h
    · next hforks =>
      obtain ⟨ds, hds, h⟩ := bind_eq_ok.1 h
      obtain ⟨forks, hmap, h⟩ := bind_eq_ok.1 h
      obtain rfl := pure_eq_ok.1 h
      have hslugs : forkSlugs fs o = ds.map (·.slug) := by simp [forkSlugs, hforks, hds]
      have htrees := map_eq_of_mapM (fun d s hd => (forkSource_eq_ok hd).1) hmap
      rw [List.map_id'] at htrees
      rw [hslugs]
      refine ⟨by simp [htrees, treeOf], fun f hf => ?_⟩
      obtain ⟨d, hd, rfl⟩ := List.mem_map.1 hf
      obtain ⟨s, -, hs⟩ := exists_of_mapM_eq_ok hmap hd
      exact (forkSource_eq_ok hs).2
    · next hforks =>
      obtain rfl := Except.ok.inj h
      have hslugs : forkSlugs fs o = [] := by simp [forkSlugs, hforks]
      rw [hslugs]
      exact ⟨rfl, by simp⟩

/-- A tree of a run is known by its fork. -/
theorem eq_treeOf_of_sources {ss : List Source} (h : sources fs o = .ok ss) {s : Source} (hs : s ∈ ss) :
    s = treeOf o s.fork ∧ ∀ f, s.fork = some f → Naming.isSafeComponent f = true := by
  obtain ⟨rfl, hsafe⟩ := sources_eq_ok h
  obtain ⟨fork, hfork, rfl⟩ := List.mem_map.1 hs
  refine ⟨by rw [fork_treeOf], fun f hf => hsafe f ?_⟩
  rw [fork_treeOf] at hf
  simpa [hf] using hfork

theorem plan_eq_ok {p : Plan} (h : plan fs o = .ok p) :
    checkTargets o.targets = .ok p.targets ∧ sources fs o = .ok p.sources := by
  unfold plan at h
  obtain ⟨targets, ht, h⟩ := bind_eq_ok.1 h
  obtain ⟨ss, hs, h⟩ := bind_eq_ok.1 h
  dsimp only at h
  split at h
  · cases h
  · obtain ⟨icon, -, h⟩ := bind_eq_ok.1 h
    obtain ⟨agreement, -, h⟩ := bind_eq_ok.1 h
    obtain ⟨license, -, h⟩ := bind_eq_ok.1 h
    obtain rfl := pure_eq_ok.1 h
    exact ⟨ht, hs⟩

/-- What the archives of a run are for, in order: the bundle and then each fork, for each target. -/
def keys (fs : FileSystem) (o : PackageOptions) : List Key :=
  (none :: (forkSlugs fs o).map some) ×ˢ o.targets.map (·.name)

/-- The jobs of a run are its trees, each for each target. -/
theorem mem_jobs {α β : Type} {xs : List α} {ts : List β} {j : α × β} :
    j ∈ (xs.flatMap fun y => ts.map fun u => (y, u)) ↔ j.1 ∈ xs ∧ j.2 ∈ ts := by
  obtain ⟨x, t⟩ := j
  simp

theorem runs_of_run {rs : List PackageResult} (h : run fs o = (.ok rs, fs')) :
    ∃ p w', plan fs o = .ok p ∧ w'.files = fs' ∧
      Runs ((p.sources.flatMap fun s => p.targets.map fun t => (s, t)).mapM fun j =>
        packageOne o p.shared j.1 j.2) ⟨fs, { root := o.dist, dryRun := o.dryRun }⟩ rs w' := by
  unfold run at h
  split at h
  · cases h
  · next p hp =>
    obtain ⟨hresult, hfiles⟩ := Prod.mk.inj h
    exact ⟨p, _, hp, hfiles, Prod.ext hresult rfl⟩

/-- A run makes an archive of each tree for each target, in order. -/
theorem keys_of_run {rs : List PackageResult} {ss : List Source} (hs : sources fs o = .ok ss)
    (h : run fs o = (.ok rs, fs')) : rs.map (·.key) = ss.map (·.fork) ×ˢ o.targets.map (·.name) := by
  obtain ⟨p, w', hp, -, hrun⟩ := runs_of_run h
  obtain ⟨htargets, hsources⟩ := plan_eq_ok hp
  obtain rfl := Except.ok.inj (hs.symm.trans hsources)
  rw [keys_of_runs hrun, ← names_of_checkTargets htargets]
  simp [SProd.sprod, List.product, List.map_flatMap, List.flatMap_map, Function.comp_def]

/-- A real run that ends well makes an archive for each key. -/
theorem packaged_of_run (hreal : o.dryRun = false)
    (hplain : ∀ k ∈ keys fs o, '/' ∉ (stem o.slug k).toList) {rs : List PackageResult}
    (h : run fs o = (.ok rs, fs')) : rs.map (·.key) = keys fs o ∧ Packaged o fs fs' rs := by
  obtain ⟨p, w', hp, rfl, hrun⟩ := runs_of_run h
  obtain ⟨htargets, hsources⟩ := plan_eq_ok hp
  have hnames := names_of_checkTargets htargets
  have hforks : p.sources.map (·.fork) = none :: (forkSlugs fs o).map some := by
    rw [(sources_eq_ok hsources).1, List.map_map]
    simp [Function.comp_def]
  have hkeys : (p.sources.flatMap fun s => p.targets.map fun t => (s, t)).map (fun j => (j.1.fork, j.2.name)) =
      keys fs o := by
    rw [keys, ← hforks, ← hnames]
    simp [SProd.sprod, List.product, List.map_flatMap, List.flatMap_map, Function.comp_def]
  have hjobs : ∀ j ∈ p.sources.flatMap fun s => p.targets.map fun t => (s, t), Plain o j.1 j.2 := by
    intro j hj
    refine ⟨?_, hplain (j.1.fork, j.2.name) (hkeys ▸ List.mem_map_of_mem hj)⟩
    rw [(eq_treeOf_of_sources hsources (mem_jobs.1 hj).1).1, slug_treeOf, fork_treeOf]
  obtain ⟨hmade, hpackaged⟩ := packaged_of_runs hreal hjobs hrun
  exact ⟨hmade.trans hkeys, hpackaged⟩

end

end Package

end StoryPress
