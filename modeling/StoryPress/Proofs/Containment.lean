import StoryPress.Asset.Resolve
import StoryPress.Bytes
import StoryPress.Proofs.Place

/-!
# References and the asset root

* `Contained`: a resolved file has a relative path that does not climb, and lies at it below the root;
* `contained_of_mem_list`: every picture of the index is contained;
* `contained_resolve_iff`: a resolved reference is contained unless the segment in front of its two slashes
  names the root and the rest is a file of its own.
-/

namespace StoryPress

/-- A file that lies below the asset root by its relative path. -/
structure Contained (root : Path) (relative : String) (path : Path) : Prop where
  never_absolute : Path.startsAtRoot relative = false
  never_up : ".." ∉ Text.pieces '/' relative
  path_eq : path = root.join relative

/-- A contained file lies at the place of the root followed by the names of its relative path. -/
theorem Contained.place_eq {root : Path} {relative : String} {path : Path}
    (h : Contained root relative path) (fs : FileSystem) :
    fs.place path = fs.place root ++ (⟨relative⟩ : Path).names := by
  rw [h.path_eq, FileSystem.place_join h.never_absolute]
  apply FileSystem.foldl_enter_of_isName
  rintro n hn rfl
  exact h.never_up (List.mem_filter.1 hn).1

theorem contained_joinNames {ns : List String} (hne : ns ≠ []) (h : ∀ n ∈ ns, Path.IsName n)
    (root : Path) : Contained root (Text.joinWith "/" ns) (root.join (Text.joinWith "/" ns)) := by
  refine ⟨Path.startsAtRoot_joinNames hne h, ?_, rfl⟩
  rw [Path.pieces_joinNames hne h]
  exact fun hup => (h ".." hup).2.2.1 rfl

namespace Reference

theorem head?_dropLeading (cs : List Char) : (dropLeading cs).head? ≠ some '/' := by
  fun_induction dropLeading cs with
  | case1 _ ih => exact ih
  | case2 _ ih => exact ih
  | case3 cs _ h =>
    cases cs with
    | nil => simp
    | cons c cs =>
      rintro hc
      obtain rfl : c = '/' := by simpa using hc
      exact h cs rfl

theorem startsAtRoot_bare {raw reference : String} (h : bare? raw = some reference) :
    Path.startsAtRoot reference = false := by
  have chars (cs : List Char) : Path.startsAtRoot (String.ofList (dropLeading cs)) = false := by
    simpa [Path.startsAtRoot] using head?_dropLeading cs
  simp only [bare?] at h
  split at h
  · cases h
  · split at h <;> obtain rfl := Option.some.inj h <;> exact chars _

/-- The first segment names the asset root, and two slashes follow it. -/
def UncoversRoot (root : Path) (raw : String) : Prop :=
  ∃ first rest, bare? raw = some (first ++ "//" ++ rest) ∧ '/' ∉ first.toList ∧ namesRoot root first

/-- What is left of a reference without the segment that names the root is a path of its own only if two
slashes follow that segment. -/
theorem startsAtRoot_dropRoot_iff {root : Path} {reference : String}
    (h : Path.startsAtRoot reference = false) :
    Path.startsAtRoot (dropRoot root reference) = true ↔
      ∃ first rest, reference = first ++ "//" ++ rest ∧ '/' ∉ first.toList ∧ namesRoot root first := by
  constructor
  · intro ha
    cases hc : Text.splitFirst? '/' reference with
    | none => simp [dropRoot, hc, h] at ha
    | some p =>
      obtain ⟨first, rest⟩ := p
      by_cases hn : namesRoot root first = true
      · simp only [dropRoot, hc, hn, if_true, Path.startsAtRoot, beq_iff_eq] at ha
        obtain ⟨hcs, hf⟩ := Text.splitFirst?_eq_some_iff.1 hc
        obtain ⟨cs, hrest⟩ := List.head?_eq_some_iff.1 ha
        exact ⟨first, String.ofList cs, String.toList_injective (by simp [hcs, hrest]), hf, hn⟩
      · simp [dropRoot, hc, hn, h] at ha
  · rintro ⟨first, rest, rfl, hf, hn⟩
    have hc : Text.splitFirst? '/' (first ++ "//" ++ rest) = some (first, "/" ++ rest) :=
      Text.splitFirst?_eq_some_iff.2 ⟨by simp, hf⟩
    simp [dropRoot, hc, hn, Path.startsAtRoot]

theorem normalize_eq_some {raw reference : String} {root : Path} (h : normalize raw root = some reference) :
    ".." ∉ Text.pieces '/' reference ∧
      (Path.startsAtRoot reference = true ↔ UncoversRoot root raw) := by
  simp only [normalize, Option.filter_eq_some_iff, Option.map_eq_some_iff, Bool.and_eq_true,
    Bool.not_eq_true'] at h
  obtain ⟨⟨bare, hb, rfl⟩, -, hup⟩ := h
  refine ⟨by simpa using hup, ?_⟩
  rw [startsAtRoot_dropRoot_iff (startsAtRoot_bare hb)]
  simp [UncoversRoot, hb]

end Reference

namespace AssetIndex

theorem mem_insert_list {index : AssetIndex} {relative : String} {path : Path} {a : IndexedAsset}
    (h : a ∈ (index.insert relative path).list) : a = ⟨relative, path⟩ ∨ a ∈ index.list := by
  obtain ⟨⟨k, b⟩, hb, rfl⟩ := List.mem_map.1 h
  rcases OrderedMap.mem_insertEntry hb with hb | hb
  · exact .inl (Prod.mk.inj hb).2
  · exact .inr (List.mem_map.2 ⟨_, hb, rfl⟩)

theorem mem_list_ofEntries {root : Path} {entries : List (String × Path)} {a : IndexedAsset}
    (h : a ∈ (ofEntries root entries).list) : (a.relative, a.path) ∈ entries := by
  have fold (es : List (String × Path)) : ∀ index : AssetIndex,
      a ∈ (es.foldl (fun index e => index.insert e.1 e.2) index).list →
        a ∈ index.list ∨ (a.relative, a.path) ∈ es := by
    induction es with
    | nil => exact fun index h => .inl h
    | cons e es ih =>
      intro index h
      rcases ih _ h with h | h
      · rcases mem_insert_list h with rfl | h
        · exact .inr List.mem_cons_self
        · exact .inl h
      · exact .inr (List.mem_cons_of_mem _ h)
  rcases fold entries _ h with h | h
  · cases h
  · exact h

theorem root_ofEntries (root : Path) (entries : List (String × Path)) :
    (ofEntries root entries).root = root := by
  have fold (es : List (String × Path)) : ∀ index : AssetIndex,
      (es.foldl (fun index e => index.insert e.1 e.2) index).root = index.root := by
    induction es with
    | nil => exact fun _ => rfl
    | cons e es ih => exact fun index => ih _
  exact fold entries _

theorem root_build (fs : FileSystem) (root : Path) : (build fs root).root = root := by
  unfold build
  split
  · exact root_ofEntries root _
  · rfl

/-- The files of a walk from the root are contained in it. -/
theorem contained_of_mem_walkFiles {fs : FileSystem} (hw : fs.WellFormed) {root p : Path}
    {files : List (Path × ByteArray)} {c : ByteArray} {relative : String}
    (hd : fs.isDirectory root = true) (h : fs.walkFiles root = .ok files) (hp : (p, c) ∈ files)
    (hr : Path.slashBelow? root p = some relative) : Contained root relative p := by
  obtain ⟨files', hf, hmem⟩ := FileSystem.mem_walkFiles_iff hw hd
  obtain rfl : files = files' := Except.ok.inj (h.symm.trans hf)
  obtain ⟨ns, hne, hns, -, rfl⟩ := (hmem p c).1 hp
  rw [Path.slashBelow?_join hne hns] at hr
  obtain rfl := Option.some.inj hr
  exact contained_joinNames hne hns root

theorem contained_of_mem_list {fs : FileSystem} (hw : fs.WellFormed) {root : Path} {a : IndexedAsset}
    (h : a ∈ (build fs root).list) : Contained root a.relative a.path := by
  unfold build at h
  split at h
  · next entries he =>
    have hmem := mem_list_ofEntries h
    split at he
    · next hd =>
      simp only [picturesBelow, bind, Except.bind, pure, Except.pure] at he
      cases hf : fs.walkFiles root with
      | error e => simp [hf] at he
      | ok files =>
        simp only [hf] at he
        obtain rfl := Except.ok.inj he
        obtain ⟨⟨p, c⟩, hp, hpe⟩ := List.mem_filterMap.1 hmem
        split at hpe
        · obtain ⟨relative, hr, heq⟩ := Option.map_eq_some_iff.1 hpe
          obtain ⟨rfl, rfl⟩ := Prod.mk.inj heq
          exact contained_of_mem_walkFiles hw hd hf hp hr
        · cases hpe
    · obtain rfl := Except.ok.inj he
      cases hmem
  · cases h

theorem contained_of_scanForStem {fs : FileSystem} (hw : fs.WellFormed) {index : AssetIndex}
    {reference : String} {found : ResolvedAsset} (h : scanForStem fs index reference = some found) :
    found.step = .directoryScan ∧ Contained index.root found.relative found.path := by
  simp only [scanForStem, Option.ite_none_left_eq_some, Bool.or_eq_true, not_or, Bool.not_eq_true',
    Bool.not_eq_false] at h
  obtain ⟨⟨hd, -⟩, h⟩ := h
  split at h
  · cases h
  · next files hf =>
    split at h
    · cases h
    · next p c hfind =>
      obtain ⟨relative, hr, rfl⟩ := Option.map_eq_some_iff.1 h
      exact ⟨rfl, contained_of_mem_walkFiles hw hd hf (List.mem_of_find?_eq_some hfind) hr⟩

theorem mem_list_of_get? {index : AssetIndex} {relative : String} {a : IndexedAsset}
    (h : index.get? relative = some a) : a ∈ index.list :=
  List.mem_map.2 ⟨_, OrderedMap.get?_eq_some_iff.1 h, rfl⟩

theorem mem_list_of_matchCase {index : AssetIndex} {reference : String} {a : IndexedAsset}
    (h : index.matchCase reference = some a) : a ∈ index.list := by
  simp only [matchCase, Option.orElse_eq_or, Option.or_eq_some_iff] at h
  rcases h with h | ⟨-, h⟩ <;> exact List.mem_of_find?_eq_some h

/-- What a step finds: a file by the reference itself, on disk, or a contained one. -/
def FoundBy (root : Path) (reference : String) (found : ResolvedAsset) : Prop :=
  found.step = .onDisk ∧ found.relative = reference ∧ found.path = root.join reference ∨
    found.step ≠ .onDisk ∧ Contained root found.relative found.path

section
variable {built fs : FileSystem} (hb : built.WellFormed) (hw : fs.WellFormed) {root : Path}
  {found : ResolvedAsset}
include hb

theorem foundBy_found {a : IndexedAsset} {step : ResolutionStep} (h : a ∈ (build built root).list)
    (hs : step ≠ .onDisk) (reference : String) : FoundBy root reference (AssetIndex.found a step) :=
  .inr ⟨hs, contained_of_mem_list hb h⟩

theorem foundBy_of_matchCharacter {reference : String}
    (h : (build built root).matchCharacter reference = some found) : FoundBy root reference found := by
  unfold matchCharacter at h
  split at h
  · cases h
  · split at h
    · next a ha =>
      obtain rfl := Option.some.inj h
      exact foundBy_found hb (List.mem_of_find?_eq_some ha) (by decide) reference
    · split at h
      · cases h
      · obtain ⟨a, ha, rfl⟩ := Option.map_eq_some_iff.1 h
        exact .inr ⟨by simp, contained_of_mem_list hb (List.mem_of_find?_eq_some ha)⟩

include hw

theorem foundBy_of_resolvePath {reference : String}
    (h : resolvePath fs (build built root) reference = some found) : FoundBy root reference found := by
  unfold resolvePath at h
  split at h
  · next a ha =>
    obtain rfl := Option.some.inj h
    exact foundBy_found hb (mem_list_of_get? ha) (by decide) reference
  · simp only [root_build] at h
    split at h
    · obtain rfl := Option.some.inj h
      exact .inl ⟨rfl, rfl, rfl⟩
    · split at h
      · next a ha =>
        obtain rfl := Option.some.inj h
        exact foundBy_found hb (mem_list_of_matchCase ha) (by decide) reference
      · obtain ⟨hs, hc⟩ := contained_of_scanForStem hw h
        rw [root_build] at hc
        exact .inr ⟨by simp [hs], hc⟩

theorem foundBy_of_resolve {kind : AssetKind} {raw : String}
    (h : (build built root).resolve fs kind raw = some found) :
    ∃ reference, Reference.normalize raw root = some reference ∧ FoundBy root reference found := by
  unfold resolve at h
  rw [root_build] at h
  split at h
  · cases h
  · next reference hr =>
    refine ⟨reference, hr, ?_⟩
    cases kind with
    | background => exact foundBy_of_resolvePath hb hw h
    | portrait =>
      rw [Option.orElse_eq_or, Option.or_eq_some_iff] at h
      rcases h with h | ⟨-, h⟩
      · exact foundBy_of_resolvePath hb hw h
      · exact foundBy_of_matchCharacter hb h

/-- A resolved reference stays in the asset root, except for one whose first segment names the root, with two
slashes after it, and which is then found on disk: that one leads to wherever its own path leads. -/
theorem contained_resolve_iff {kind : AssetKind} {raw : String}
    (h : (build built root).resolve fs kind raw = some found) :
    (Contained root found.relative found.path ↔
        ¬(found.step = .onDisk ∧ Reference.UncoversRoot root raw)) ∧
      (Contained root found.relative found.path →
        fs.place found.path = fs.place root ++ (⟨found.relative⟩ : Path).names) ∧
      (¬Contained root found.relative found.path →
        Path.startsAtRoot found.relative = true ∧ found.path = ⟨found.relative⟩) := by
  obtain ⟨reference, hr, hfound⟩ := foundBy_of_resolve hb hw h
  obtain ⟨hup, hroot⟩ := Reference.normalize_eq_some hr
  have hiff : Contained root found.relative found.path ↔
      ¬(found.step = .onDisk ∧ Reference.UncoversRoot root raw) := by
    rcases hfound with ⟨hs, hrel, hp⟩ | ⟨hs, hc⟩
    · rw [← hroot, hs, hrel, hp]
      constructor
      · rintro hc ⟨-, ha⟩
        rw [hc.never_absolute] at ha
        cases ha
      · intro hn
        exact ⟨by simpa using hn, hup, rfl⟩
    · exact ⟨fun _ hd => hs hd.1, fun _ => hc⟩
  refine ⟨hiff, fun hc => hc.place_eq fs, fun hn => ?_⟩
  have hd : found.step = .onDisk ∧ Reference.UncoversRoot root raw :=
    Classical.byContradiction fun hd => hn (hiff.2 hd)
  rcases hfound with ⟨-, hrel, hp⟩ | ⟨hs, -⟩
  · have ha := hroot.2 hd.2
    exact ⟨hrel ▸ ha, by rw [hp, hrel, Path.join_of_startsAtRoot ha]⟩
  · exact absurd hd.1 hs

end

/-- A picture below the asset root `art`, and one beside it. -/
def besideRoot : FileSystem where
  nodes := .ofList [(["art"], .directory), (["art", "a.png"], .file (Bytes.ofList [1])),
    (["secret.png"], .file (Bytes.ofList [2]))]

/-- A file beside the asset root is found through the name of the root and two slashes. -/
theorem not_contained_of_two_slashes :
    besideRoot.WellFormed ∧
      ∃ found, (build besideRoot ⟨"art"⟩).resolve besideRoot .background "asset://Art//secret.png" = some found ∧
        ¬Contained ⟨"art"⟩ found.relative found.path := by
  have hw : besideRoot.WellFormed := by decide +kernel
  have hr : (build besideRoot ⟨"art"⟩).resolve besideRoot .background "asset://Art//secret.png" =
      some ⟨"/secret.png", ⟨"/secret.png"⟩, .onDisk, none⟩ := by
    decide +kernel
  refine ⟨hw, _, hr, fun hc => (contained_resolve_iff hw hw hr).1.1 hc ⟨rfl, ?_⟩⟩
  exact ⟨"Art", "secret.png", by decide +kernel⟩

end AssetIndex

end StoryPress
