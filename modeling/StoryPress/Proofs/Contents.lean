import StoryPress.Proofs.Archives
import StoryPress.Proofs.Idle
import StoryPress.Proofs.RecordedForks
import StoryPress.Proofs.Reread

/-!
# What archives hold

An archive holds the files of a game and some fixed entries, and its manifest lists the files of the game. What is
put beside it are copies of the manifest and of the licences that are in it.

* `Archive.treeFiles_eq_ok`: the files that a tree brings into an archive are those below its game;
* `Package.Archived`: what an archive holds, and what is told about it, in it and beside it;
* `Package.archived_of_packageOne`: packaging a tree for a target makes such an archive;
* `Package.run_of_builds`: a dry run packages what can be built;
* `Package.Archives`: archives made one after the other; `archives_of_run`: those of a run.
-/

namespace StoryPress

open Layout

/-! ## Files of a tree -/

theorem FileSystem.walk_eq_ok {fs : FileSystem} {dir : Path} {entries : List WalkEntry}
    (h : fs.walk dir = .ok entries) :
    ∃ n, entries = ⟨dir, fs.place dir, n⟩ ::
      (fs.below (fs.place dir)).map fun e => ⟨pathBelow dir (e.1.drop (fs.place dir).length), e.1, e.2⟩ := by
  obtain ⟨l, hl, h⟩ := bind_eq_ok.1 h
  obtain rfl := locate_eq_place hl
  dsimp only at h
  split at h
  · cases h
  · exact ⟨_, (pure_eq_ok.1 h).symm⟩

theorem Path.slashBelow?_self (dir : Path) : Path.slashBelow? dir dir = none := by
  simp [slashBelow?, below?]

namespace Archive

variable {fs : FileSystem} {dir : Path} {files : List (String × ByteArray)}

/-- What is read for a file of a walk is what is there. -/
theorem content_of_read {e : String × Path} {limit : Nat} {c : String × ByteArray}
    (h : (do return (e.1, ← fs.readWithin limit e.2) : Except Failure (String × ByteArray)) = .ok c) :
    c = (e.1, (fs.fileAt (fs.place e.2)).getD ByteArray.empty) ∧ c.2.size ≤ limit := by
  obtain ⟨bytes, hread, h⟩ := bind_eq_ok.1 h
  obtain rfl := pure_eq_ok.1 h
  obtain ⟨-, hfile, hsize⟩ := FileSystem.readWithin_eq_ok hread
  rw [hfile]
  exact ⟨rfl, hsize⟩

/-- The files that a tree brings into an archive are those below its directory, under their names from there. -/
theorem treeFiles_eq_ok (hw : fs.WellFormed) (h : treeFiles fs dir = .ok files) :
    files = ((fs.filesBelow (fs.place dir)).map fun e => (Text.joinWith "/" e.1, e.2)) ∧
      ∀ e ∈ files, e.2.size ≤ maxAssetBytes := by
  unfold treeFiles at h
  split at h
  · cases h
  · next entries hwalk =>
    refine ⟨?_, fun e he => ?_⟩
    · have hfiles := map_eq_of_mapM (fun a b hb => (content_of_read hb).1) h
      obtain ⟨n, rfl⟩ := FileSystem.walk_eq_ok hwalk
      have hself : (if n = .directory then none
          else (Path.slashBelow? dir dir).map fun rel => (rel, dir)) = none := by
        rw [Path.slashBelow?_self]
        simp
      rw [List.map_id'] at hfiles
      rw [hfiles, List.filterMap_cons, hself, List.filterMap_map, List.map_filterMap, FileSystem.filesBelow,
        List.map_filterMap]
      apply List.filterMap_congr
      rintro ⟨k, m⟩ hk
      obtain ⟨ns, hne, rfl, hm⟩ := FileSystem.mem_below_iff.1 hk
      have hns : ∀ n ∈ ns, Path.IsName n := fun n hn => hw.isName hm n (List.mem_append_right _ hn)
      cases m with
      | directory => rfl
      | file content =>
        simp [FileSystem.pathBelow, Path.foldl_join hne hns, Path.slashBelow?_join hne hns,
          FileSystem.place_join_names hne hns, FileSystem.fileAt_eq_some_iff.2 hm]
    · obtain ⟨a, -, ha⟩ := exists_of_mem_mapM h he
      exact (content_of_read ha).2

end Archive

/-! ## Files beside an archive -/

theorem Path.text_join_ne_empty {rel : String} (h : rel ≠ "") (dir : Path) : (dir.join rel).text ≠ "" := by
  cases hroot : startsAtRoot rel with
  | true =>
    rw [join_of_startsAtRoot hroot]
    exact h
  | false =>
    rw [join_eq_front hroot]
    intro hempty
    exact h (String.append_eq_empty_iff.1 hempty).2

/-- What is written with bytes of its own is there if nothing that is put later takes its place. -/
theorem Written.fileAt_of_nodup {fs : FileSystem} {root : Path} {as : List Preparation.Artifact} {w : Workbench}
    (h : Written fs root as w) (hd : (as.map fun a => fs.place (root.join a.1)).Nodup) {a : Preparation.Artifact}
    (ha : a ∈ as) {bytes : ByteArray} (hbytes : ∀ held l, a.2.putAt fs held l = some bytes) :
    w.files.fileAt (fs.place (root.join a.1)) = some bytes := by
  obtain ⟨before, after, rfl⟩ := List.append_of_mem ha
  have hlast : ∀ b ∈ after, fs.place (root.join b.1) ≠ fs.place (root.join a.1) := by
    intro b hb heq
    rw [List.map_append, List.map_cons] at hd
    have hnot := (List.nodup_cons.1 (List.nodup_append.1 hd).2.1).1
    exact hnot (heq ▸ List.mem_map_of_mem hb)
  rw [h.fileAt_eq, overlay_of_last hlast]
  exact hbytes _ _

theorem Written.read_eq {fs : FileSystem} {root : Path} {as : List Preparation.Artifact} {w : Workbench}
    (h : Written fs root as w) (hd : (as.map fun a => fs.place (root.join a.1)).Nodup) {a : Preparation.Artifact}
    (ha : a ∈ as) {bytes : ByteArray} (hbytes : ∀ held l, a.2.putAt fs held l = some bytes) (hne : a.1 ≠ "") :
    w.files.read (root.join a.1) = .ok bytes := by
  refine FileSystem.read_eq_ok_iff.2 ⟨Path.text_join_ne_empty hne root, h.leads a ha, ?_⟩
  rw [h.extends_files.place_eq, h.fileAt_of_nodup hd ha hbytes]

/-! ## Entries -/

theorem Archive.entries_foldl_add (name : String → String) (files : List (String × ByteArray)) (a : Archive) :
    (files.foldl (fun a f => a.add (name f.1) f.2) a).entries =
      (files.map fun f => (name f.1, f.2)).foldl (fun m e => m.insert e.1 e.2) a.entries := by
  induction files generalizing a with
  | nil => rfl
  | cons f files ih => exact ih (a.add (name f.1) f.2)

namespace Package

/-- The name of an entry in the archive of a tree for a target. -/
def entryName (s : Source) (t : CheckedTarget) (rel : String) : String := s.slug ++ "/" ++ t.name ++ "/" ++ rel

/-- The stamp of the manifest that is in an archive. -/
def Parts.stamp (p : Parts) : Stamp := Stamp.ofBytes publishManifest p.manifest.toUTF8 p.inputs

/-- What is in an archive beside the game. -/
def fixtures (o : PackageOptions) (shared : Shared) (s : Source) (t : CheckedTarget) (p : Parts) :
    List (String × ByteArray) :=
  [(publishManifest, p.manifest.toUTF8),
    (channels, (Storefront.channelsJson t.name s.slug p.archiveName t.platforms).pretty.toUTF8),
    ("legal/EULA.txt", shared.agreement.toUTF8), ("legal/LICENSE.txt", shared.license.toUTF8),
    ("legal/license_manifest.json", p.licenses.toUTF8), (provenance, p.stamp.text.toUTF8),
    ("icon.png", shared.icon)] ++
  if o.debug then [("debug/hook_catalog.json", Hook.catalog.pretty.toUTF8)] else []

/-- The files of the game of a tree, with their paths from there. -/
def gameFiles (fs : FileSystem) (s : Source) : List (String × ByteArray) :=
  (fs.filesBelow (fs.place (s.root.join gameDir))).map fun e => (Text.joinWith "/" e.1, e.2)

/-- All that is in an archive. -/
def inventory (fs : FileSystem) (o : PackageOptions) (shared : Shared) (s : Source) (t : CheckedTarget) (p : Parts) :
    List (String × ByteArray) :=
  ((gameFiles fs s).map fun e => (entryName s t gameDir ++ "/" ++ e.1, e.2)) ++
    (fixtures o shared s t p).map fun e => (entryName s t e.1, e.2)

/-- What the manifest of an archive says of a file. -/
def fileRow (e : String × ByteArray) : TreeFile := ⟨e.1, Hash.sha256Hex e.2, e.2.size⟩

/-- What the parts of an archive are made of. -/
structure Made (fs : FileSystem) (o : PackageOptions) (shared : Shared) (s : Source) (t : CheckedTarget)
    (p : Parts) : Prop where
  archive_eq : p.archive = Zip.write (OrderedMap.ofList (inventory fs o shared s t p)).entries
  manifest_eq : p.manifest = (manifestJson o s t p.archiveName ((gameFiles fs s).map fileRow)).pretty
  licenses_eq : ∃ entries, Legal.entries fs s.root = .ok entries ∧
    p.licenses = (Legal.manifestJson s.slug o.version entries).pretty
  sizes : ∀ e ∈ gameFiles fs s, e.2.size ≤ maxAssetBytes

variable {fs : FileSystem} {o : PackageOptions} {shared : Shared} {s : Source} {t : CheckedTarget} {p : Parts}

theorem made_of_build (hw : fs.WellFormed) (h : build fs o shared s t = .ok p) : Made fs o shared s t p := by
  obtain ⟨⟨archive, rows⟩, hadd, h⟩ := bind_eq_ok.1 h
  obtain ⟨entries, hentries, h⟩ := bind_eq_ok.1 h
  obtain ⟨inputs, -, h⟩ := bind_eq_ok.1 h
  obtain rfl := pure_eq_ok.1 h
  obtain ⟨files, hfiles, hadd⟩ := bind_eq_ok.1 hadd
  obtain ⟨hgame, hsizes⟩ := Archive.treeFiles_eq_ok hw hfiles
  obtain ⟨harchive, hrows⟩ := Prod.mk.inj (pure_eq_ok.1 hadd)
  have hgame : files = gameFiles fs s := hgame
  subst hgame
  subst hrows
  subst harchive
  refine ⟨?_, rfl, ⟨entries, hentries, rfl⟩, hsizes⟩
  have htree : OrderedMap.ofList ((gameFiles fs s).map fun e => (entryName s t gameDir ++ "/" ++ e.1, e.2)) =
      ((gameFiles fs s).foldl (fun a e => a.add (entryName s t gameDir ++ "/" ++ e.1) e.2) ({} : Archive)).entries :=
    (Archive.entries_foldl_add _ _ _).symm
  have hall (l : List (String × ByteArray)) : OrderedMap.ofList ((gameFiles fs s).map
      (fun e => (entryName s t gameDir ++ "/" ++ e.1, e.2)) ++ l) = l.foldl (fun m e => m.insert e.1 e.2)
        ((gameFiles fs s).foldl (fun a e => a.add (entryName s t gameDir ++ "/" ++ e.1) e.2) ({} : Archive)).entries := by
    rw [← htree]
    exact List.foldl_append
  rw [inventory, hall, fixtures]
  cases o.debug <;> rfl

/-! ## Names of entries -/

/-- The names of what is in an archive beside the game. -/
def fixtureNames (debug : Bool) : List String :=
  [publishManifest, channels, "legal/EULA.txt", "legal/LICENSE.txt", "legal/license_manifest.json", provenance,
    "icon.png"] ++ if debug then ["debug/hook_catalog.json"] else []

theorem names_fixtures : (fixtures o shared s t p).map (·.1) = fixtureNames o.debug := by
  unfold fixtures fixtureNames
  cases o.debug <;> rfl

theorem nodup_fixtureNames (debug : Bool) : (fixtureNames debug).Nodup := by
  cases debug <;> decide

/-- None of them is in the directory of the game. -/
theorem fixtureNames_ne (debug : Bool) (rel : String) : gameDir ++ "/" ++ rel ∉ fixtureNames debug := by
  have htake : ∀ n ∈ fixtureNames debug, n.toList.take 5 ≠ (gameDir ++ "/").toList := by
    cases debug <;> decide
  intro hmem
  apply htake _ hmem
  rw [String.toList_append]
  rfl

theorem entryName_injective {a b : String} (h : entryName s t a = entryName s t b) : a = b :=
  (String.append_right_inj _).1 h

theorem joinNames_injOn {ns ms : List String} (hne : ns ≠ []) (hns : ∀ n ∈ ns, Path.IsName n) (hne' : ms ≠ [])
    (hms : ∀ m ∈ ms, Path.IsName m) (h : Text.joinWith "/" ns = Text.joinWith "/" ms) : ns = ms := by
  rw [← Path.pieces_joinNames hne hns, h, Path.pieces_joinNames hne' hms]

/-- The files of a game are those below its directory, by the names from there. -/
theorem mem_gameFiles_iff {e : String × ByteArray} :
    e ∈ gameFiles fs s ↔ ∃ ns, ns ≠ [] ∧ fs.fileAt (fs.place (s.root.join gameDir) ++ ns) = some e.2 ∧
      e.1 = Text.joinWith "/" ns := by
  unfold gameFiles
  constructor
  · intro h
    obtain ⟨⟨ns, c⟩, hmem, rfl⟩ := List.mem_map.1 h
    obtain ⟨hne, hc⟩ := FileSystem.mem_filesBelow_iff.1 hmem
    exact ⟨ns, hne, hc, rfl⟩
  · rintro ⟨ns, hne, hc, he⟩
    exact List.mem_map.2 ⟨(ns, e.2), FileSystem.mem_filesBelow_iff.2 ⟨hne, hc⟩, Prod.ext he.symm rfl⟩

theorem nodup_gameFiles (hw : fs.WellFormed) (s : Source) : ((gameFiles fs s).map (·.1)).Nodup := by
  have hnames : ∀ ns ∈ (fs.filesBelow (fs.place (s.root.join gameDir))).map (·.1),
      ns ≠ [] ∧ ∀ n ∈ ns, Path.IsName n := by
    intro ns hns
    obtain ⟨⟨ns, c⟩, hmem, rfl⟩ := List.mem_map.1 hns
    obtain ⟨hne, hc⟩ := FileSystem.mem_filesBelow_iff.1 hmem
    exact ⟨hne, fun n hn => hw.isName (FileSystem.fileAt_eq_some_iff.1 hc) n (List.mem_append_right _ hn)⟩
  have hmap : (gameFiles fs s).map (·.1) =
      ((fs.filesBelow (fs.place (s.root.join gameDir))).map (·.1)).map (Text.joinWith "/") := by
    rw [gameFiles, List.map_map, List.map_map]
    rfl
  rw [hmap]
  refine (fs.nodup_filesBelow _).map_on ?_
  intro ns hns ms hms heq
  exact joinNames_injOn (hnames ns hns).1 (hnames ns hns).2 (hnames ms hms).1 (hnames ms hms).2 heq

/-- No entry takes the place of another one. -/
theorem nodup_inventory (hw : fs.WellFormed) : ((inventory fs o shared s t p).map (·.1)).Nodup := by
  have hmap : (inventory fs o shared s t p).map (·.1) =
      (((gameFiles fs s).map (·.1)).map (gameDir ++ "/" ++ ·) ++ fixtureNames o.debug).map (entryName s t) := by
    rw [← @names_fixtures o shared s t p]
    simp [inventory, entryName, String.append_assoc, Function.comp_def]
  rw [hmap]
  refine List.Nodup.map (fun a b => entryName_injective) ?_
  refine List.Nodup.append ((nodup_gameFiles hw s).map fun a b => (String.append_right_inj _).1)
    (nodup_fixtureNames o.debug) ?_
  intro n hgame hfix
  obtain ⟨rel, -, rfl⟩ := List.mem_map.1 hgame
  exact fixtureNames_ne o.debug rel hfix

end Package

/-! ## What manifests and stamps say -/

namespace TreeFile

theorem normalize_toJson (f : TreeFile) : f.toJson.normalize = f.toJson := by
  have hsorted : Json.sortFields [("path", .string f.path), ("sha256", .string f.sha256), ("size", Json.ofNat f.size)] =
      [("path", .string f.path), ("sha256", .string f.sha256), ("size", Json.ofNat f.size)] := rfl
  simpa [toJson, Json.normalize, Json.normalizeFields, Json.ofNat] using hsorted

@[simp] theorem plain_toJson {n : Nat} (f : TreeFile) : Json.Plain (n + 1) f.toJson := by simp [toJson]

theorem rereads_toJson {f : TreeFile} (h : f.size < 1 <<< 64) : Json.Rereads f.toJson f.toJson := by
  refine Json.Rereads.object_self ?_
  simp [Json.Rereads.string_iff, Json.Rereads.ofNat h]

end TreeFile

/-- A file is the stamp of an artifact with some content: it tells the name of the artifact, and the digest and the
size of the content. It is read back as far as the size is a number of 64 bits. -/
def Stamp.Attests (stamp : ByteArray) (artifact : String) (content : ByteArray) : Prop :=
  ∃ v : Json, stamp = v.pretty.toUTF8 ∧ v.field? "artifact" = some (.string artifact) ∧
    v.field? "sha256" = some (.string (Hash.sha256Hex content)) ∧ v.field? "size" = some (.ofNat content.size) ∧
    (content.size < 1 <<< 64 → Json.parseBytes Json.Tree.value stamp = .ok v.normalize)

@[simp] theorem StampInput.plain_toJson {n : Nat} (i : StampInput) : Json.Plain (n + 1) i.toJson := by simp [toJson]

theorem StampInput.rereads_toJson (i : StampInput) : Json.Rereads i.toJson i.toJson := by
  refine Json.Rereads.object_self ?_
  simp [Json.Rereads.string_iff]

/-- A file is the stamp of an artifact with some content, and tells the inputs that this was made from. -/
def Stamp.AttestsFrom (stamp : ByteArray) (artifact : String) (content : ByteArray) (inputs : List StampInput) : Prop :=
  ∃ v : Json, stamp = v.pretty.toUTF8 ∧ v.field? "artifact" = some (.string artifact) ∧
    v.field? "sha256" = some (.string (Hash.sha256Hex content)) ∧ v.field? "size" = some (.ofNat content.size) ∧
    v.field? "inputs" = some (.array (inputs.map StampInput.toJson)) ∧
    (content.size < 1 <<< 64 → Json.parseBytes Json.Tree.value stamp = .ok v.normalize)

theorem Stamp.attestsFrom_ofBytes (artifact : String) (content : ByteArray) (inputs : List StampInput) :
    AttestsFrom (ofBytes artifact content inputs).text.toUTF8 artifact content inputs := by
  refine ⟨(ofBytes artifact content inputs).toJson, rfl, rfl, rfl, rfl, rfl, fun hsize => ?_⟩
  have hplain : Json.Plain 3 (ofBytes artifact content inputs).toJson := by simp [toJson]
  rw [text, Json.parseBytes_pretty (by decide) hplain]
  refine Json.Rereads.value_eq_ok_iff.2 ⟨_, Json.Rereads.object_self ?_, rfl⟩
  have hgenerator : Json.Rereads (.object [("name", .string "talewright-export"), ("version", .string "0.1.0")])
      (.object [("name", .string "talewright-export"), ("version", .string "0.1.0")]) := rfl
  have hinputs : Json.Rereads (.array (inputs.map StampInput.toJson)) (.array (inputs.map StampInput.toJson)) :=
    Json.Rereads.array_self (List.forall_mem_map.2 fun i _ => i.rereads_toJson)
  simp [Json.Rereads.string_iff, ofBytes, Json.Rereads.ofNat hsize, hgenerator, hinputs]

theorem Stamp.attests_ofBytes (artifact : String) (content : ByteArray) (inputs : List StampInput) :
    Attests (ofBytes artifact content inputs).text.toUTF8 artifact content := by
  obtain ⟨v, htext, hartifact, hsha, hsize, -, hread⟩ := attestsFrom_ofBytes artifact content inputs
  exact ⟨v, htext, hartifact, hsha, hsize, hread⟩

namespace Package

variable {fs : FileSystem} {o : PackageOptions} {shared : Shared} {s : Source} {t : CheckedTarget} {p : Parts}

/-- A manifest is read back, and lists the files of the game. -/
theorem Made.files_of_manifest (h : Made fs o shared s t p) :
    ∃ v, Json.parseBytes Json.Tree.value p.manifest.toUTF8 = .ok v ∧
      v.field? "files" = some (.array (((gameFiles fs s).map fileRow).map TreeFile.toJson)) := by
  set rows := (gameFiles fs s).map fileRow with hdef
  have hplain : Json.Plain 3 (manifestJson o s t p.archiveName rows) := by simp [manifestJson]
  have hrows : Json.Rereads (.array (rows.map TreeFile.toJson)) (.array (rows.map TreeFile.toJson)) := by
    refine Json.Rereads.array_self (List.forall_mem_map.2 fun f hf => TreeFile.rereads_toJson ?_)
    obtain ⟨e, he, rfl⟩ := List.mem_map.1 (hdef ▸ hf)
    exact Nat.lt_of_le_of_lt (h.sizes e he) (by decide)
  have hplatforms : Json.Rereads (.ofStrings (t.platforms.map Platform.name))
      (.ofStrings (t.platforms.map Platform.name)) :=
    Json.Rereads.array_self (List.forall_mem_map.2 fun n _ => rfl)
  have hread : Json.Rereads (manifestJson o s t p.archiveName rows) (manifestJson o s t p.archiveName rows) := by
    refine Json.Rereads.object_self ?_
    simp [Json.Rereads.string_iff, Json.Rereads.ofText?, hplatforms, hrows]
  refine ⟨(manifestJson o s t p.archiveName rows).normalize, ?_, ?_⟩
  · rw [h.manifest_eq, Json.parseBytes_pretty (by decide) hplain]
    exact Json.Rereads.value_eq_ok_iff.2 ⟨_, hread, rfl⟩
  · obtain ⟨x, hx, hfield⟩ : ∃ x, Json.Rereads (.array (rows.map TreeFile.toJson)) x ∧
        (manifestJson o s t p.archiveName rows).normalize.field? "files" = some x.normalize :=
      Json.field?_of_rereads hread (by simp) (by simp)
    rw [hfield, ← hrows.unique hx, Json.normalize, Json.normalizeItems_eq, List.map_map]
    simp [Function.comp_def, TreeFile.normalize_toJson]

/-! ## Archives -/

/-- What is known of an archive, of what is told about it and of the files beside it, when a tree has been packaged
for a target. -/
structure Archived (o : PackageOptions) (shared : Shared) (s : Source) (t : CheckedTarget) (fs : FileSystem)
    (p : Parts) (r : PackageResult) (fs' : FileSystem) : Prop where
  built : build fs o shared s t = .ok p
  key_eq : r.key = (s.fork, t.name)
  checksum_eq : r.checksum = Hash.sha256Hex p.archive
  size_eq : r.size = p.archive.size
  /-- The entries are the files of the game and the fixed ones, each once and in the order of their names. -/
  entries : ∃ entries, p.archive = Zip.write entries ∧ (entries.map (·.1)).Nodup ∧
    entries.Pairwise (fun e e' => compare e.1 e'.1 = .lt) ∧
    ∀ e, e ∈ entries ↔
      (∃ ns, ns ≠ [] ∧ fs.fileAt (fs.place (s.root.join gameDir) ++ ns) = some e.2 ∧
        e.1 = entryName s t (gameDir ++ "/" ++ Text.joinWith "/" ns)) ∨
      ∃ f ∈ fixtures o shared s t p, e = (entryName s t f.1, f.2)
  /-- The manifest is read as a value that lists the files of the game, each once and as it is in the archive. -/
  listed : ∃ files : List TreeFile, (files.map (·.path)).Nodup ∧
    (∀ f, f ∈ files ↔ ∃ ns content, ns ≠ [] ∧ fs.fileAt (fs.place (s.root.join gameDir) ++ ns) = some content ∧
      f = ⟨Text.joinWith "/" ns, Hash.sha256Hex content, content.size⟩) ∧
    ∃ v, Json.parseBytes Json.Tree.value p.manifest.toUTF8 = .ok v ∧
      v.field? "files" = some (.array (files.map TreeFile.toJson))
  stamped : Stamp.Attests p.stamp.text.toUTF8 publishManifest p.manifest.toUTF8
  licensed : ∃ entries, Legal.entries fs s.root = .ok entries ∧
    p.licenses = (Legal.manifestJson s.slug o.version entries).pretty
  beside : r.archive = o.dist.join (p.stem ++ ".zip") ∧
    r.manifest = o.dist.join (p.stem ++ ".publish_manifest.json") ∧
    r.licenses = o.dist.join (p.stem ++ ".license_manifest.json")
  /-- What a real run has put beside the archive are the manifest and the licences that are in it. -/
  copied : o.dryRun = false → fs'.read r.archive = .ok p.archive ∧ fs'.read r.manifest = .ok p.manifest.toUTF8 ∧
    fs'.read r.licenses = .ok p.licenses.toUTF8
  idle : o.dryRun = true → fs' = fs
  extends_files : fs.Extends fs'
  /-- Nothing but the files of the archive is put. -/
  frame : ∀ l, (∀ e ∈ endings, l ≠ fs.place (o.dist.join (p.stem ++ e))) → fs'.fileAt l = fs.fileAt l

variable {fs' : FileSystem} {w w' : Workbench} {r : PackageResult}

theorem Made.entries (h : Made fs o shared s t p) (hw : fs.WellFormed) :
    ∃ entries, p.archive = Zip.write entries ∧ (entries.map (·.1)).Nodup ∧
      entries.Pairwise (fun e e' => compare e.1 e'.1 = .lt) ∧
      ∀ e, e ∈ entries ↔
        (∃ ns, ns ≠ [] ∧ fs.fileAt (fs.place (s.root.join gameDir) ++ ns) = some e.2 ∧
          e.1 = entryName s t (gameDir ++ "/" ++ Text.joinWith "/" ns)) ∨
        ∃ f ∈ fixtures o shared s t p, e = (entryName s t f.1, f.2) := by
  refine ⟨_, h.archive_eq, OrderedMap.nodup_keys _, OrderedMap.sorted _, fun e => ?_⟩
  rw [OrderedMap.mem_entries_ofList (nodup_inventory hw), inventory, List.mem_append, List.mem_map, List.mem_map]
  refine or_congr ?_ (exists_congr fun f => and_congr_right' eq_comm)
  constructor
  · rintro ⟨f, hf, rfl⟩
    obtain ⟨ns, hne, hc, hf⟩ := mem_gameFiles_iff.1 hf
    exact ⟨ns, hne, hc, by rw [hf]; simp [entryName, String.append_assoc]⟩
  · rintro ⟨ns, hne, hc, he⟩
    refine ⟨(Text.joinWith "/" ns, e.2), mem_gameFiles_iff.2 ⟨ns, hne, hc, rfl⟩, Prod.ext ?_ rfl⟩
    rw [he]
    simp [entryName, String.append_assoc]

theorem Made.listed (h : Made fs o shared s t p) (hw : fs.WellFormed) :
    ∃ files : List TreeFile, (files.map (·.path)).Nodup ∧
      (∀ f, f ∈ files ↔ ∃ ns content, ns ≠ [] ∧ fs.fileAt (fs.place (s.root.join gameDir) ++ ns) = some content ∧
        f = ⟨Text.joinWith "/" ns, Hash.sha256Hex content, content.size⟩) ∧
      ∃ v, Json.parseBytes Json.Tree.value p.manifest.toUTF8 = .ok v ∧
        v.field? "files" = some (.array (files.map TreeFile.toJson)) := by
  refine ⟨(gameFiles fs s).map fileRow, ?_, fun f => ?_, h.files_of_manifest⟩
  · rw [List.map_map]
    exact nodup_gameFiles hw s
  · rw [List.mem_map]
    constructor
    · rintro ⟨e, he, rfl⟩
      obtain ⟨ns, hne, hc, he⟩ := mem_gameFiles_iff.1 he
      exact ⟨ns, e.2, hne, hc, by rw [fileRow, he]⟩
    · rintro ⟨ns, content, hne, hc, rfl⟩
      exact ⟨(Text.joinWith "/" ns, content), mem_gameFiles_iff.2 ⟨ns, hne, hc, rfl⟩, rfl⟩

/-- A dry run builds the parts of an archive, and puts nothing. -/
theorem idle_of_packageOne (hdry : o.dryRun = true) (h : Runs (packageOne o shared s t) w r w') :
    ∃ p, build w.files o shared s t = .ok p ∧ w'.files = w.files ∧
      r.key = (s.fork, t.name) ∧ r.archive = o.dist.join p.archiveName ∧ r.manifest = o.dist.join p.manifestName ∧
      r.licenses = o.dist.join p.licensesName ∧ r.checksum = Hash.sha256Hex p.archive ∧
      r.size = p.archive.size := by
  obtain ⟨p, w₁, w₂, w₃, hbuild, harchive, hmanifest, hlicenses, hstamps, hkey, hchecksum, hsize⟩ :=
    runs_of_packageOne h
  rcases hstamps with ⟨-, rfl⟩ | ⟨hreal, -⟩
  · obtain ⟨harchive, hfiles₁, c₁, -, hsink₁⟩ := Sink.changes_of_put hdry harchive
    have hdry₁ : w₁.sink.dryRun = true := by rw [hsink₁]; exact hdry
    obtain ⟨hmanifest, hfiles₂, c₂, -, hsink₂⟩ := Sink.changes_of_put hdry₁ hmanifest
    have hdry₂ : w₂.sink.dryRun = true := by rw [hsink₂]; exact hdry₁
    obtain ⟨hlicenses, hfiles₃, c₃, -, hsink₃⟩ := Sink.changes_of_put hdry₂ hlicenses
    have hroot₁ : w₁.sink.root = o.dist := by rw [hsink₁]
    have hroot₂ : w₂.sink.root = o.dist := by rw [hsink₂]; exact hroot₁
    exact ⟨p, hbuild, by rw [hfiles₃, hfiles₂, hfiles₁], hkey, harchive, by rw [hmanifest, hroot₁],
      by rw [hlicenses, hroot₂], hchecksum, hsize⟩
  · cases hdry.symm.trans hreal

/-- A dry run makes an archive of what can be built, where none of its files is there yet. -/
theorem runs_packageOne (hdry : o.dryRun = true) (hbuild : build fs o shared s t = .ok p)
    (habsent : ∀ e ∈ endings, fs.isFile (o.dist.join (p.stem ++ e)) = false) (sink : Sink) :
    ∃ r w', Runs (packageOne o shared s t) ⟨fs, sink⟩ r w' ∧ w'.files = fs := by
  have hput (sink : Sink) {path : String} {content : Content} (ha : (path, content) ∈ p.artifacts)
      (hroot : sink.root = o.dist) (hdry : sink.dryRun = true) : ∃ sink',
        Runs (Sink.put path content) ⟨fs, sink⟩ (sink.root.join path) ⟨fs, sink'⟩ ∧ sink'.root = o.dist ∧
          sink'.dryRun = true := by
    obtain ⟨e, he, rfl⟩ := Parts.exists_ending ha
    have hno : fs.isFile (sink.root.join (p.stem ++ e)) = false := hroot ▸ habsent e he
    have hcopy : ∀ source, content = .copyOf source → ∃ c, fs.readWithin maxAssetBytes source = .ok c := by
      rintro source rfl
      simp [Parts.artifacts] at ha
    obtain ⟨change, hchange, -⟩ : ∃ change, Sink.changeFor fs (p.stem ++ e) (sink.root.join (p.stem ++ e)) content =
        .ok change ∧ _ := Sink.changeFor_of_not_isFile hno hcopy
    exact ⟨_, Sink.put_dry hdry hchange, hroot, hdry⟩
  obtain ⟨harchive, hmanifest, hlicenses⟩ := p.mem_artifacts
  unfold packageOne
  refine Runs.exists_bind (Runs.updating_iff.2 rfl) (Runs.exists_bind (Runs.reading_iff.2 ⟨hbuild, rfl⟩) ?_)
  obtain ⟨s₁, hput₁, hroot₁, hdry₁⟩ := hput { root := o.dist, dryRun := o.dryRun } harchive rfl hdry
  obtain ⟨s₂, hput₂, hroot₂, hdry₂⟩ := hput s₁ hmanifest hroot₁ hdry₁
  obtain ⟨s₃, hput₃, -⟩ := hput s₂ hlicenses hroot₂ hdry₂
  refine Runs.exists_bind hput₁ (Runs.exists_bind hput₂ (Runs.exists_bind hput₃ ?_))
  dsimp only
  rw [if_pos hdry]
  refine Runs.exists_bind (Runs.pure_iff.2 ⟨rfl, rfl⟩) (Runs.exists_bind (Runs.get_iff.2 ⟨rfl, rfl⟩) ?_)
  exact ⟨_, _, Runs.pure_iff.2 ⟨rfl, rfl⟩, rfl⟩

/-- A dry run packages what can be built, where none of its files is there yet. -/
theorem run_of_builds (hdry : o.dryRun = true) {plan : Plan} (hp : Package.plan fs o = .ok plan)
    (hbuilds : ∀ s ∈ plan.sources, ∀ t ∈ plan.targets, ∃ p, build fs o plan.shared s t = .ok p ∧
      ∀ e ∈ endings, fs.isFile (o.dist.join (p.stem ++ e)) = false) : ∃ rs, run fs o = (.ok rs, fs) := by
  have hjobs (jobs : List (Source × CheckedTarget)) (hsub : ∀ j ∈ jobs, j.1 ∈ plan.sources ∧ j.2 ∈ plan.targets)
      (sink : Sink) : ∃ rs w', Runs (jobs.mapM fun j => packageOne o plan.shared j.1 j.2) ⟨fs, sink⟩ rs w' ∧
        w'.files = fs := by
    induction jobs generalizing sink with
    | nil => exact ⟨[], _, Runs.pure_iff.2 ⟨rfl, rfl⟩, rfl⟩
    | cons j jobs ih =>
      obtain ⟨hs, ht⟩ := hsub j List.mem_cons_self
      obtain ⟨p, hbuild, habsent⟩ := hbuilds j.1 hs j.2 ht
      obtain ⟨r, ⟨files, sink'⟩, hone, rfl⟩ := runs_packageOne hdry hbuild habsent sink
      obtain ⟨rs, w', hrest, hw'⟩ := ih (fun i hi => hsub i (List.mem_cons_of_mem j hi)) sink'
      rw [List.mapM_cons]
      exact Runs.exists_bind hone (Runs.exists_bind hrest ⟨_, _, Runs.pure_iff.2 ⟨rfl, rfl⟩, hw'⟩)
  obtain ⟨rs, w', hruns, hw'⟩ := hjobs (plan.sources.flatMap fun s => plan.targets.map fun t => (s, t))
    (fun j hj => mem_jobs.1 hj) { root := o.dist, dryRun := o.dryRun }
  unfold Runs outcome at hruns
  refine ⟨rs, ?_⟩
  unfold run
  rw [hp]
  dsimp only
  rw [hruns]
  exact Prod.ext rfl hw'

/-- The parts of an archive are built where what they are made of can be read. -/
theorem exists_build (o : PackageOptions) (shared : Shared) {a : Archive × List TreeFile} {entries : List Legal.Entry}
    {inputs : List StampInput}
    (htree : Archive.addTree fs {} (entryName s t gameDir) (s.root.join gameDir) = .ok a)
    (hentries : Legal.entries fs s.root = .ok entries) (hinputs : inputsOf fs s = .ok inputs) :
    ∃ p, build fs o shared s t = .ok p := by
  unfold build
  exact ⟨_, bind_eq_ok.2 ⟨a, htree, bind_eq_ok.2 ⟨entries, hentries, bind_eq_ok.2 ⟨inputs, hinputs, rfl⟩⟩⟩⟩

/-- What is put beside an archive when it is written is what is in it. -/
theorem copied_of_written (hw : Written fs o.dist p.artifacts w') :
    w'.files.read (o.dist.join p.archiveName) = .ok p.archive ∧
      w'.files.read (o.dist.join p.manifestName) = .ok p.manifest.toUTF8 ∧
      w'.files.read (o.dist.join p.licensesName) = .ok p.licenses.toUTF8 := by
  have hne : ∀ a ∈ p.artifacts, a.1 ≠ "" := by
    intro a ha hempty
    obtain ⟨e, he, heq⟩ := Parts.exists_ending ha
    have hfiller := (not_filler_append_ending he p.stem).2
    rw [heq, hempty] at hfiller
    cases hfiller
  have hput {path : String} {content : Content} (ha : (path, content) ∈ p.artifacts) {bytes : ByteArray}
      (hbytes : ∀ held l, content.putAt fs held l = some bytes) :=
    hw.read_eq (nodup_places fs o.dist p) ha hbytes (hne _ ha)
  obtain ⟨harchive, hmanifest, hlicenses⟩ := p.mem_artifacts
  exact ⟨hput harchive fun _ _ => rfl, hput hmanifest fun _ _ => rfl, hput hlicenses fun _ _ => rfl⟩

theorem frame_of_written (hw : Written fs o.dist p.artifacts w') {l : Location}
    (hl : ∀ e ∈ endings, l ≠ fs.place (o.dist.join (p.stem ++ e))) : w'.files.fileAt l = fs.fileAt l := by
  rw [hw.fileAt_eq]
  refine overlay_of_ne fun a ha heq => ?_
  obtain ⟨e, he, hpath⟩ := Parts.exists_ending ha
  exact hl e he (hpath ▸ heq.symm)

/-- Packaging a tree for a target makes an archive that matches all that is told about it. -/
theorem archived_of_packageOne (hw : w.files.WellFormed) (h : Runs (packageOne o shared s t) w r w') :
    ∃ p, Archived o shared s t w.files p r w'.files ∧ w'.files.WellFormed := by
  cases hreal : o.dryRun with
  | false =>
    obtain ⟨p, hbuild, hwritten, hkey, harchive, hmanifest, hlicenses, hchecksum, hsize, -⟩ :=
      written_of_packageOne hreal h
    have hmade := made_of_build hw hbuild
    refine ⟨p, ⟨hbuild, hkey, hchecksum, hsize, hmade.entries hw, hmade.listed hw, Stamp.attests_ofBytes _ _ _,
      hmade.licenses_eq, ⟨?_, ?_, hlicenses⟩, fun _ => ?_, fun hdry => ?_, hwritten.extends_files,
      fun l => frame_of_written hwritten⟩, hwritten.extends_files.wellFormed hw⟩
    · rw [harchive, p.archiveName_eq]
    · rw [hmanifest, p.manifestName_eq]
    · rw [harchive, hmanifest, hlicenses]
      exact copied_of_written hwritten
    · cases hreal.symm.trans hdry
  | true =>
    obtain ⟨p, hbuild, hfiles, hkey, harchive, hmanifest, hlicenses, hchecksum, hsize⟩ := idle_of_packageOne hreal h
    have hmade := made_of_build hw hbuild
    refine ⟨p, ⟨hbuild, hkey, hchecksum, hsize, hmade.entries hw, hmade.listed hw, Stamp.attests_ofBytes _ _ _,
      hmade.licenses_eq, ⟨?_, ?_, hlicenses⟩, fun hno => ?_, fun _ => hfiles, hfiles ▸ .refl w.files,
      fun l _ => hfiles ▸ rfl⟩, hfiles ▸ hw⟩
    · rw [harchive, p.archiveName_eq]
    · rw [hmanifest, p.manifestName_eq]
    · cases hno.symm.trans hreal

/-- Archives made one after the other, each from the files that the one before has left. -/
inductive Archives (o : PackageOptions) (shared : Shared) :
    FileSystem → List (Source × CheckedTarget) → List PackageResult → FileSystem → Prop
  | nil {fs : FileSystem} : Archives o shared fs [] [] fs
  | cons {fs mid fs' : FileSystem} {s : Source} {t : CheckedTarget} {p : Parts} {r : PackageResult}
      {jobs : List (Source × CheckedTarget)} {rs : List PackageResult} (hw : fs.WellFormed)
      (first : Archived o shared s t fs p r mid) (rest : Archives o shared mid jobs rs fs') :
      Archives o shared fs ((s, t) :: jobs) (r :: rs) fs'

theorem archives_of_runs (hw : w.files.WellFormed) {jobs : List (Source × CheckedTarget)} {rs : List PackageResult}
    (h : Runs (jobs.mapM fun j => packageOne o shared j.1 j.2) w rs w') :
    Archives o shared w.files jobs rs w'.files := by
  induction jobs generalizing w rs with
  | nil =>
    obtain ⟨rfl, rfl⟩ := Runs.mapM_nil_iff.1 h
    exact .nil
  | cons j jobs ih =>
    obtain ⟨r, w₁, rs₁, hone, hrest, rfl⟩ := Runs.mapM_cons_iff.1 h
    obtain ⟨p, harchived, hw₁⟩ := archived_of_packageOne hw hone
    exact .cons hw harchived (ih hw₁ hrest)

/-- A bundle with a script. -/
def stageFiles : FileSystem where
  nodes := .ofList [(["out"], .directory), (["out", "game"], .directory),
    (["out", "game", "script.rpy"], .file "label start:".toUTF8)]

def stageOptions : PackageOptions :=
  { slug := "p", title := "p", exportRoot := ⟨"out"⟩, dist := ⟨"d"⟩, targets := [⟨"w", ["win"]⟩], debug := true }

end Package

end StoryPress
