import StoryPress.Bundle.Layout
import StoryPress.Proofs.Labels
import StoryPress.Proofs.SinkSteps

/-!
# Paths in a bundle

* `InBundle`: a path that stays in the bundle; its place is given by its names (`place_inBundle`);
* `Clean`: a path that is its names with single slashes, so that a walk knows it by the same text
  (`Clean.walkedName`).
-/

namespace StoryPress.Layout

/-- The names on a path of the bundle. -/
def names (path : String) : List String := (⟨path⟩ : Path).names

/-- A path that neither starts at the root nor goes up. -/
structure InBundle (path : String) : Prop where
  relative : Path.startsAtRoot path = false
  never_up : ".." ∉ Text.pieces '/' path

theorem place_inBundle {path : String} (h : InBundle path) (fs : FileSystem) (root : Path) :
    fs.place (root.join path) = fs.place root ++ names path := by
  rw [FileSystem.place_join h.relative]
  apply FileSystem.foldl_enter_of_isName
  rintro n hn rfl
  exact h.never_up (List.mem_filter.1 hn).1

theorem names_append (a b : String) : names (a ++ "/" ++ b) = names a ++ names b := by
  simp only [names, Path.names, Path.segments, Text.pieces_append, List.filter_append]

theorem names_joinWith {ns : List String} (hne : ns ≠ []) (hns : ∀ n ∈ ns, Path.IsName n) :
    names (Text.joinWith "/" ns) = ns :=
  Path.names_joinNames hne hns

theorem names_of_isName {n : String} (h : Path.IsName n) : names n = [n] := by
  have := names_joinWith (List.cons_ne_nil n []) (by simpa using h)
  simpa [Text.joinWith] using this

/-- A name without a backslash. -/
def PlainName (n : String) : Prop := Path.IsName n ∧ '\\' ∉ n.toList

instance : DecidablePred PlainName := fun _ => inferInstanceAs (Decidable (_ ∧ _))

/-- A path whose text is its names with single slashes between them. -/
def Clean (path : String) : Prop :=
  names path ≠ [] ∧ (∀ n ∈ names path, PlainName n) ∧ Text.joinWith "/" (names path) = path

instance : DecidablePred Clean := fun _ => inferInstanceAs (Decidable (_ ∧ _ ∧ _))

theorem clean_joinWith {ns : List String} (hne : ns ≠ []) (hns : ∀ n ∈ ns, PlainName n) :
    Clean (Text.joinWith "/" ns) := by
  unfold Clean
  rw [names_joinWith hne fun n hn => (hns n hn).1]
  exact ⟨hne, hns, rfl⟩

theorem clean_of_plainName {n : String} (h : PlainName n) : Clean n := by
  have := clean_joinWith (List.cons_ne_nil n []) (by simpa using h)
  simpa [Text.joinWith] using this

namespace Clean

variable {path : String}

theorem isName (h : Clean path) : ∀ n ∈ names path, Path.IsName n := fun n hn => (h.2.1 n hn).1

theorem inBundle (h : Clean path) : InBundle path := by
  obtain ⟨hne, hns, heq⟩ := h
  rw [← heq]
  refine ⟨Path.startsAtRoot_joinNames hne fun n hn => (hns n hn).1, ?_⟩
  rw [Path.pieces_joinNames hne fun n hn => (hns n hn).1]
  exact fun hup => (hns ".." hup).1.2.2.1 rfl

theorem append {a b : String} (ha : Clean a) (hb : Clean b) : Clean (a ++ "/" ++ b) := by
  unfold Clean
  rw [names_append, Text.joinWith_append ha.1 hb.1, ha.2.2, hb.2.2]
  refine ⟨List.append_ne_nil_of_left_ne_nil ha.1 _, ?_, rfl⟩
  intro n hn
  exact (List.mem_append.1 hn).elim (ha.2.1 n) (hb.2.1 n)

theorem injective {a b : String} (ha : Clean a) (hb : Clean b) (h : names a = names b) : a = b := by
  rw [← ha.2.2, ← hb.2.2, h]

theorem isFile_iff (h : Clean path) {fs : FileSystem} (hw : fs.WellFormed) {root : Path} :
    fs.isFile (root.join path) = true ↔ fs.Leads root ∧ (fs.fileAt (fs.place root ++ names path)).isSome := by
  rw [← FileSystem.isFile_join_iff hw h.1 h.isName, h.2.2]

end Clean

theorem walkedName_of_plain {ns : List String} (h : ∀ n ∈ ns, '\\' ∉ n.toList) :
    Sink.walkedName ns = Text.joinWith "/" ns := by
  have hno : '\\' ∉ (Text.joinWith "/" ns).toList := by
    induction ns with
    | nil => decide
    | cons n ns ih =>
      by_cases hne : ns = []
      · subst hne
        simpa [Text.joinWith] using h n (by simp)
      · rw [Text.joinWith_cons hne]
        have hrest := ih fun m hm => h m (by simp [hm])
        have hn := h n (by simp)
        simp [hn, hrest]
  have hmap : (Text.joinWith "/" ns).toList.map (fun c => if c = '\\' then '/' else c) =
      (Text.joinWith "/" ns).toList.map id := by
    refine List.map_congr_left fun c hc => if_neg ?_
    rintro rfl
    exact hno hc
  simp [Sink.walkedName, Text.mapChars, hmap]

theorem Clean.walkedName {path : String} (h : Clean path) : Sink.walkedName (names path) = path := by
  rw [walkedName_of_plain fun n hn => (h.2.1 n hn).2, h.2.2]

theorem InBundle.append {a b : String} (ha : Clean a) (hb : ".." ∉ Text.pieces '/' b) :
    InBundle (a ++ "/" ++ b) := by
  refine ⟨?_, ?_⟩
  · have hroot := ha.inBundle.relative
    have hne : a ≠ "" := by
      rintro rfl
      exact ha.1 rfl
    obtain ⟨c, cs, hc⟩ := List.exists_cons_of_ne_nil fun he => hne (String.toList_eq_nil_iff.1 he)
    simpa [Path.startsAtRoot, hc] using hroot
  · rw [Text.pieces_append, List.mem_append, not_or]
    exact ⟨ha.inBundle.never_up, hb⟩

/-! ## Trees -/

/-- The directory of a game: the bundle itself, or that of a fork. -/
def IsTree (dir : String) : Prop := dir = "" ∨ ∃ slug, PlainName slug ∧ dir = fork slug

theorem plainName_forksDir : PlainName forksDir := by decide

theorem names_fork {slug : String} (h : PlainName slug) : names (fork slug) = [forksDir, slug] := by
  rw [fork, names_append, names_of_isName plainName_forksDir.1, names_of_isName h.1]
  rfl

theorem clean_fork {slug : String} (h : PlainName slug) : Clean (fork slug) :=
  (clean_of_plainName plainName_forksDir).append (clean_of_plainName h)

theorem under_fork (slug rel : String) : under (fork slug) rel = fork slug ++ "/" ++ rel := by
  have hne : fork slug ≠ "" := by simp [fork, forksDir]
  simp [under, hne]

theorem names_under (dir rel : String) : names (under dir rel) = names dir ++ names rel := by
  by_cases hd : dir = ""
  · subst hd
    simp [under, names, Path.names, Path.segments, Text.pieces, Text.cutAll, Path.isFiller]
  · simp only [under, String.isEmpty_iff, hd, if_false, names_append]

theorem stamp_under (dir rel : String) : stamp (under dir rel) = under dir (stamp rel) := by
  unfold stamp under
  split
  · rfl
  · simp only [String.append_assoc]

theorem Clean.under {dir rel : String} (hd : IsTree dir) (h : Clean rel) : Clean (under dir rel) := by
  obtain rfl | ⟨slug, hs, rfl⟩ := hd
  · exact h
  · rw [under_fork]
    exact (clean_fork hs).append h

theorem InBundle.under {dir rel : String} (hd : IsTree dir) (h : InBundle rel) : InBundle (under dir rel) := by
  obtain rfl | ⟨slug, hs, rfl⟩ := hd
  · exact h
  · rw [under_fork]
    exact .append (clean_fork hs) h.never_up

/-! ## The files of a tree -/

theorem clean_imagesPath : Clean (gameDir ++ "/" ++ imagesDir) :=
  (clean_of_plainName (by decide)).append (clean_of_plainName (by decide))

theorem clean_scenesPath : Clean (gameDir ++ "/" ++ scenesDir) :=
  (clean_of_plainName (by decide)).append (clean_of_plainName (by decide))

theorem names_imagesPath : names (gameDir ++ "/" ++ imagesDir) = [gameDir, imagesDir] :=
  names_joinWith (List.cons_ne_nil gameDir [imagesDir]) (by decide)

theorem names_scenesPath : names (gameDir ++ "/" ++ scenesDir) = [gameDir, scenesDir] :=
  names_joinWith (List.cons_ne_nil gameDir [scenesDir]) (by decide)

theorem clean_script : Clean script ∧ Clean (stamp script) :=
  ⟨clean_joinWith (List.cons_ne_nil gameDir ["script.rpy"]) (by decide),
    clean_joinWith (List.cons_ne_nil gameDir ["script.rpy.provenance.json"]) (by decide)⟩

theorem names_script : names script = [gameDir, "script.rpy"] ∧
    names (stamp script) = [gameDir, "script.rpy.provenance.json"] :=
  ⟨names_joinWith (List.cons_ne_nil gameDir ["script.rpy"]) (by decide),
    names_joinWith (List.cons_ne_nil gameDir ["script.rpy.provenance.json"]) (by decide)⟩

theorem clean_manifests : Clean exportManifest ∧ Clean (stamp exportManifest) ∧ Clean labelManifest :=
  ⟨clean_of_plainName (by decide), clean_of_plainName (by decide), clean_of_plainName (by decide)⟩

theorem names_manifests : names exportManifest = [exportManifest] ∧
    names (stamp exportManifest) = ["export_manifest.json.provenance.json"] ∧
    names labelManifest = [labelManifest] :=
  ⟨names_of_isName (by decide), names_of_isName (by decide), names_of_isName (by decide)⟩

theorem inBundle_image {relative : String} (h : ".." ∉ Text.pieces '/' relative) : InBundle (image relative) :=
  .append clean_imagesPath h

theorem names_image (relative : String) : names (image relative) = gameDir :: imagesDir :: names relative := by
  rw [image, names_append, names_imagesPath]
  rfl

/-- A relative path of a picture without empty segments, periods and backslashes. -/
def CleanReference (relative : String) : Prop :=
  ∀ s ∈ Text.pieces '/' relative, Path.isFiller s = false ∧ '\\' ∉ s.toList

theorem clean_of_cleanReference {relative : String} (h : CleanReference relative)
    (hup : ".." ∉ Text.pieces '/' relative) : Clean relative := by
  have hplain : ∀ n ∈ Text.pieces '/' relative, PlainName n := by
    intro n hn
    obtain ⟨hfiller, hb⟩ := h n hn
    have hf : n ≠ "" ∧ n ≠ "." := by simpa [Path.isFiller] using hfiller
    refine ⟨⟨hf.1, hf.2, ?_, Text.not_mem_of_mem_pieces hn⟩, hb⟩
    rintro rfl
    exact hup hn
  have hclean := clean_joinWith (Text.pieces_ne_nil '/' relative) hplain
  rwa [Text.joinWith_pieces] at hclean

theorem clean_image {relative : String} (h : Clean relative) : Clean (image relative) :=
  clean_imagesPath.append h

theorem plainName_of_nameChar {n : String} (hne : n ≠ "") (h : ∀ c ∈ n.toList, Naming.NameChar c) :
    PlainName n := by
  have hno (c : Char) (hu : c ≠ '_') (ha : c.isAlphanum = false) : c ∉ n.toList := fun hc =>
    (h c hc).ne hu ha rfl
  refine ⟨⟨hne, ?_, ?_, hno '/' (by decide) (by decide)⟩, hno '\\' (by decide) (by decide)⟩
  · rintro rfl
    exact hno '.' (by decide) (by decide) (by decide)
  · rintro rfl
    exact hno '.' (by decide) (by decide) (by decide)

/-- The name of the module of the scene with a label. -/
def moduleName (label : String) : String := label ++ "." ++ scriptExtension

theorem plainName_moduleName {label : String} (h : ∀ c ∈ label.toList, Naming.NameChar c) :
    PlainName (moduleName label) := by
  have hlist : (moduleName label).toList = label.toList ++ ['.', 'r', 'p', 'y'] := by
    simp [moduleName, scriptExtension]
  have hno (c : Char) (hu : c ≠ '_') (ha : c.isAlphanum = false) (hx : c ∉ ['.', 'r', 'p', 'y']) :
      c ∉ (moduleName label).toList := by
    rw [hlist, List.mem_append, not_or]
    exact ⟨fun hc => (h c hc).ne hu ha rfl, hx⟩
  have hlast (s : String) (hs : s.toList.getLast? ≠ some 'y') : moduleName label ≠ s := by
    rintro rfl
    exact hs (by rw [hlist]; simp)
  exact ⟨⟨hlast _ (by decide), hlast _ (by decide), hlast _ (by decide),
    hno '/' (by decide) (by decide) (by decide)⟩, hno '\\' (by decide) (by decide) (by decide)⟩

theorem sceneModule_eq (label : String) :
    sceneModule label = gameDir ++ "/" ++ scenesDir ++ "/" ++ moduleName label := by
  simp only [sceneModule, moduleName, String.append_assoc]

theorem clean_sceneModule {label : String} (h : ∀ c ∈ label.toList, Naming.NameChar c) :
    Clean (sceneModule label) := by
  rw [sceneModule_eq]
  exact clean_scenesPath.append (clean_of_plainName (plainName_moduleName h))

theorem names_sceneModule {label : String} (h : ∀ c ∈ label.toList, Naming.NameChar c) :
    names (sceneModule label) = [gameDir, scenesDir, moduleName label] := by
  rw [sceneModule_eq, names_append, names_scenesPath, names_of_isName (plainName_moduleName h).1]
  rfl

end StoryPress.Layout
