import Mathlib.Data.String.Basic
import StoryPress.Proofs.Unmoved

/-!
# The order of a scan

A walk compares paths name by name, the index compares them as whole texts. The two orders differ where a name goes
on after the name of a directory beside it with a character before the slash, as `a-b` does after `a`. A scan takes
the first picture in the order of the walk, so it takes the first one of the index if and only if it is not
overtaken in this way by another picture with the stem.

* `joinWith_lt_or_overtaken`, `Overtaken.lt`: how the two orders are related;
* `sorted_walked`, `sorted_list`: the orders of a walk and of the index;
* `scanned_in_walk_order`: which picture a scan finds, and when it is the first one of the index.
-/

namespace StoryPress

/-! ## Names and whole paths -/

theorem Text.compare_eq_lt_iff {s t : String} : compare s t = .lt ↔ s.toList < t.toList := by
  rw [← String.lt_iff_toList_lt]
  exact compareOfLessAndEq_eq_lt

/-- Of two texts in order, the first is a front of the second, or they part at a character. -/
theorem Text.front_or_parts {u v : List Char} (h : u < v) :
    (∃ c e, v = u ++ c :: e) ∨ ∃ front a b u' v', u = front ++ a :: u' ∧ v = front ++ b :: v' ∧ a < b := by
  induction u generalizing v with
  | nil =>
    cases v with
    | nil => exact absurd h (List.not_lt_nil _)
    | cons c e => exact .inl ⟨c, e, rfl⟩
  | cons a u ih =>
    cases v with
    | nil => exact absurd h (List.not_lt_nil _)
    | cons b v =>
      rcases List.cons_lt_cons_iff.1 h with hlt | ⟨rfl, hlt⟩
      · exact .inr ⟨[], a, b, u, v, rfl, rfl, hlt⟩
      · rcases ih hlt with ⟨c, e, rfl⟩ | ⟨front, x, y, u', v', rfl, rfl, hxy⟩
        · exact .inl ⟨c, e, rfl⟩
        · exact .inr ⟨a :: front, x, y, u', v', rfl, rfl, hxy⟩

theorem Text.lt_append_cons (u : List Char) (c : Char) (e : List Char) : u < u ++ c :: e := by
  conv_lhs => rw [← List.append_nil u]
  exact List.append_left_lt (List.nil_lt_cons c e)

/-- Beside a directory above the first picture, the second one has a longer name, which goes on with a character
before the slash. -/
def Overtaken (first second : List String) : Prop :=
  ∃ front dir inside name below, inside ≠ [] ∧ first = front ++ dir :: inside ∧ second = front ++ name :: below ∧
    ∃ c e, c < '/' ∧ name.toList = dir.toList ++ c :: e

theorem Overtaken.cons {xs ys : List String} (h : Overtaken xs ys) (n : String) : Overtaken (n :: xs) (n :: ys) := by
  obtain ⟨front, dir, inside, name, below, hne, rfl, rfl, hname⟩ := h
  exact ⟨n :: front, dir, inside, name, below, hne, rfl, rfl, hname⟩

theorem toList_joinWith_cons {n : String} {names : List String} (h : names ≠ []) :
    (Text.joinWith "/" (n :: names)).toList = n.toList ++ '/' :: (Text.joinWith "/" names).toList := by
  rw [Text.joinWith_cons h]
  simp

/-- What follows a name in a path comes at the end of the name or after a slash. -/
theorem exists_toList_joinWith (n : String) (names : List String) :
    ∃ rest, (Text.joinWith "/" (n :: names)).toList = n.toList ++ rest := by
  by_cases h : names = []
  · exact ⟨[], by simp [h, Text.joinWith]⟩
  · exact ⟨_, toList_joinWith_cons h⟩

theorem joinWith_lt_of_lt {x y : String} {xs ys : List String} (hy : '/' ∉ y.toList) (h : compare x y = .lt) :
    (Text.joinWith "/" (x :: xs)).toList < (Text.joinWith "/" (y :: ys)).toList ∨ Overtaken (x :: xs) (y :: ys) := by
  obtain ⟨before, hbefore⟩ := exists_toList_joinWith x xs
  obtain ⟨after, hafter⟩ := exists_toList_joinWith y ys
  rcases Text.front_or_parts (Text.compare_eq_lt_iff.1 h) with ⟨c, e, hname⟩ | ⟨front, a, b, u, v, hx, hy, hab⟩
  · by_cases hxs : xs = []
    · left
      have hwhole : (Text.joinWith "/" [x]).toList = x.toList := by simp [Text.joinWith]
      rw [hafter, hname, hxs, hwhole, List.append_assoc]
      exact Text.lt_append_cons _ c _
    · -- the slash after `x` is compared with the character after `x` in `y`
      have hc : c ≠ '/' := by
        rintro rfl
        exact hy (by simp [hname])
      rcases lt_or_gt_of_ne hc with hlt | hgt
      · exact .inr ⟨[], x, xs, y, ys, hxs, rfl, rfl, c, e, hlt, hname⟩
      · left
        rw [hafter, hname, toList_joinWith_cons hxs, List.append_assoc]
        exact List.append_left_lt (List.cons_lt_cons_iff.2 (.inl hgt))
  · left
    rw [hbefore, hafter, hx, hy, List.append_assoc, List.append_assoc]
    exact List.append_left_lt (List.cons_lt_cons_iff.2 (.inl hab))

/-- The order of a walk and that of the paths. -/
theorem joinWith_lt_or_overtaken {xs ys : List String} (hxs : xs ≠ []) (hys : ∀ n ∈ ys, '/' ∉ n.toList)
    (h : compare xs ys = .lt) :
    (Text.joinWith "/" xs).toList < (Text.joinWith "/" ys).toList ∨ Overtaken xs ys := by
  induction xs generalizing ys with
  | nil => exact absurd rfl hxs
  | cons x xs ih =>
    cases ys with
    | nil => cases h
    | cons y ys =>
      rw [List.compare_cons_cons, Ordering.then_eq_lt] at h
      rcases h with h | ⟨h, hrest⟩
      · exact joinWith_lt_of_lt (hys y (by simp)) h
      · obtain rfl := Std.LawfulEqCmp.eq_of_compare h
        have hne : ys ≠ [] := by
          rintro rfl
          cases xs <;> cases hrest
        by_cases hxs' : xs = []
        · left
          have hwhole : (Text.joinWith "/" [x]).toList = x.toList := by simp [Text.joinWith]
          rw [toList_joinWith_cons hne, hxs', hwhole]
          exact Text.lt_append_cons _ '/' _
        · rcases ih hxs' (fun n hn => hys n (by simp [hn])) hrest with hlt | hover
          · left
            rw [toList_joinWith_cons hxs', toList_joinWith_cons hne]
            exact List.append_left_lt (List.cons_lt_cons_iff.2 (.inr ⟨rfl, hlt⟩))
          · exact .inr (hover.cons x)

theorem Overtaken.lt {xs ys : List String} (h : Overtaken xs ys) :
    (Text.joinWith "/" ys).toList < (Text.joinWith "/" xs).toList := by
  obtain ⟨front, dir, inside, name, below, hne, rfl, rfl, c, e, hlt, hname⟩ := h
  induction front with
  | nil =>
    obtain ⟨rest, hrest⟩ := exists_toList_joinWith name below
    rw [List.nil_append, List.nil_append, hrest, hname, toList_joinWith_cons hne, List.append_assoc]
    exact List.append_left_lt (List.cons_lt_cons_iff.2 (.inl hlt))
  | cons n front ih =>
    rw [List.cons_append, List.cons_append, toList_joinWith_cons (by simp), toList_joinWith_cons (by simp)]
    exact List.append_left_lt (List.cons_lt_cons_iff.2 (.inr ⟨rfl, ih⟩))

/-! ## The orders of a walk and of the index -/

theorem FileSystem.compare_append_left (l : Location) (a b : List String) : compare (l ++ a) (l ++ b) = compare a b := by
  induction l with
  | nil => rfl
  | cons n l ih =>
    rw [List.cons_append, List.cons_append, List.compare_cons_cons, ih, show compare n n = .eq from Std.ReflCmp.compare_self]
    rfl

theorem FileSystem.sorted_filesBelow (fs : FileSystem) (l : Location) :
    (fs.filesBelow l).Pairwise fun p q => compare p.1 q.1 = .lt := by
  refine List.pairwise_filterMap.2 ((fs.nodes.sorted.filter _).imp_of_mem ?_)
  rintro ⟨k, n⟩ ⟨k', n'⟩ hk hk' hlt p hp q hq
  obtain ⟨ns, -, rfl, -⟩ := mem_below_iff.1 (show (k, n) ∈ fs.below l from hk)
  obtain ⟨ns', -, rfl, -⟩ := mem_below_iff.1 (show (k', n') ∈ fs.below l from hk')
  rw [compare_append_left] at hlt
  cases n <;> cases n' <;> cases hp <;> cases hq
  simpa using hlt

/-- The first element of a list in order that passes a test comes before the others that do. -/
theorem least_of_find? {α : Type} {r : α → α → Prop} {l : List α} (hl : l.Pairwise r) {p : α → Bool} {a : α}
    (h : l.find? p = some a) {b : α} (hb : b ∈ l) (hp : p b = true) : b = a ∨ r a b := by
  obtain ⟨-, before, after, rfl, hbefore⟩ := List.find?_eq_some_iff_append.1 h
  rcases List.mem_append.1 hb with hb | hb
  · have hno := hbefore b hb
    rw [hp] at hno
    cases hno
  · rcases List.mem_cons.1 hb with rfl | hb
    · exact .inl rfl
    · exact .inr ((List.pairwise_cons.1 (List.pairwise_append.1 hl).2.1).1 b hb)

namespace AssetIndex

variable {fs : FileSystem} {root : Path}

/-- The index cuts off the extension of a picture where the walk does. -/
theorem Picture.stem_eq {a : IndexedAsset} (h : Picture fs root a.relative a.path) :
    a.path.stem? = some a.fileStem := by
  obtain ⟨ns, hne, hns, hrel⟩ := h.names
  have himage := h.image
  have hlast : ns.getLast? = some (ns.getLast hne) := List.getLast?_eq_some_getLast hne
  have hname : a.path.name? = some (ns.getLast hne) := by
    rw [h.path_eq, hrel, Path.name?_join hne hns, hlast]
  have hfile : a.fileName = ns.getLast hne := by
    rw [IndexedAsset.fileName, IndexedAsset.segments, hrel, Path.pieces_joinNames hne hns, hlast, Option.getD_some]
  rw [Path.isImage, Path.extension?, hname, Option.bind_some] at himage
  rw [Path.stem?, hname, Option.map_some, IndexedAsset.fileStem, hfile]
  unfold Path.splitName at himage ⊢
  split at himage
  · next stem ext hsplit =>
    split at himage
    · cases himage
    · next hstem => simp [hsplit, hstem]
  · cases himage

theorem mem_list_of_mem_walked (hw : fs.WellFormed) {e : String × Path} (he : e ∈ walked fs root) :
    ⟨e.1, e.2⟩ ∈ (build fs root).list := by
  have hget := @get?_build fs hw root e.1
  rw [if_pos (List.mem_map_of_mem he), ← (picture_of_mem_walked hw he).path_eq] at hget
  exact mem_list_of_get? hget

theorem sorted_list (hw : fs.WellFormed) :
    (build fs root).list.Pairwise fun a b => compare a.relative b.relative = .lt := by
  have hkey : ∀ p ∈ (build fs root).assets.entries, p.2.relative = p.1 := by
    intro p hp
    have hget := @get?_build fs hw root p.1
    rw [show (build fs root).get? p.1 = some p.2 from OrderedMap.mem_entries_iff.1 hp] at hget
    split at hget
    · rw [Option.some.inj hget]
    · cases hget
  refine List.pairwise_map.2 ((build fs root).assets.sorted.imp_of_mem ?_)
  intro p q hp hq hlt
  rwa [hkey p hp, hkey q hq]

theorem sorted_walked (hw : fs.WellFormed) : (walked fs root).Pairwise fun e e' =>
    compare (Text.pieces '/' e.1) (Text.pieces '/' e'.1) = .lt := by
  rw [walked_eq, FileSystem.walkedFiles_eq hw]
  split
  · rw [List.filterMap_map]
    refine List.pairwise_filterMap.2 ((FileSystem.sorted_filesBelow fs _).imp_of_mem ?_)
    rintro ⟨ns, c⟩ ⟨ns', c'⟩ hns hns' hlt e he e' he'
    have pieces_eq {ns : List String} {c : ByteArray} {e : String × Path}
        (hmem : (ns, c) ∈ fs.filesBelow (fs.place root))
        (he : (if (root.join (Text.joinWith "/" ns)).isImage then
          (Path.slashBelow? root (root.join (Text.joinWith "/" ns))).map fun relative =>
            (relative, root.join (Text.joinWith "/" ns)) else none) = some e) : Text.pieces '/' e.1 = ns := by
      obtain ⟨hne, hc⟩ := FileSystem.mem_filesBelow_iff.1 hmem
      have hnames : ∀ n ∈ ns, Path.IsName n := fun n hn =>
        hw.isName (FileSystem.fileAt_eq_some_iff.1 hc) n (by simp [hn])
      rw [Path.slashBelow?_join hne hnames] at he
      split at he
      · obtain rfl := Option.some.inj he
        exact Path.pieces_joinNames hne hnames
      · cases he
    rwa [pieces_eq hns he, pieces_eq hns' he']
  · exact .nil

/-! ## What a scan finds -/

/-- The first picture of the index with a stem in some letter case. -/
def firstByStem (index : AssetIndex) (stem : String) : Option IndexedAsset :=
  index.list.find? fun a => Text.lower a.fileStem == stem

/-- What a scan finds among the pictures of the index. -/
structure Scanned (index : AssetIndex) (stem : String) (a : IndexedAsset) : Prop where
  mem : a ∈ index.list
  stem_eq : Text.lower a.fileStem = stem
  least : ∀ b ∈ index.list, Text.lower b.fileStem = stem → b = a ∨ compare a.segments b.segments = .lt
  first_iff : index.firstByStem stem = some a ↔
    ∀ b ∈ index.list, Text.lower b.fileStem = stem → ¬Overtaken a.segments b.segments

theorem joinWith_segments (a : IndexedAsset) : Text.joinWith "/" a.segments = a.relative :=
  Text.joinWith_pieces a.relative

theorem firstByStem_iff (hw : fs.WellFormed) {stem : String} {a : IndexedAsset} (ha : a ∈ (build fs root).list)
    (hstem : Text.lower a.fileStem = stem)
    (hleast : ∀ b ∈ (build fs root).list, Text.lower b.fileStem = stem →
      b = a ∨ compare a.segments b.segments = .lt) :
    (build fs root).firstByStem stem = some a ↔
      ∀ b ∈ (build fs root).list, Text.lower b.fileStem = stem → ¬Overtaken a.segments b.segments := by
  constructor
  · intro hfirst b hb hbstem hover
    have hlt := hover.lt
    rw [joinWith_segments, joinWith_segments] at hlt
    rcases least_of_find? (sorted_list hw) hfirst hb (beq_iff_eq.2 hbstem) with rfl | hab
    · exact lt_irrefl _ hlt
    · exact lt_asymm hlt (Text.compare_eq_lt_iff.1 hab)
  · intro hnone
    obtain ⟨c, hc⟩ : ∃ c, (build fs root).firstByStem stem = some c :=
      Option.isSome_iff_exists.1 (List.find?_isSome.2 ⟨a, ha, beq_iff_eq.2 hstem⟩)
    have hcmem : c ∈ (build fs root).list := List.mem_of_find?_eq_some hc
    have hcstem : Text.lower c.fileStem = stem := beq_iff_eq.1 (List.find?_eq_some_iff_append.1 hc).1
    rcases least_of_find? (sorted_list hw) hc ha (beq_iff_eq.2 hstem) with rfl | hca
    · exact hc
    · rcases hleast c hcmem hcstem with rfl | hac
      · exact hc
      · have hslash : ∀ n ∈ c.segments, '/' ∉ n.toList := fun n hn => Text.not_mem_of_mem_pieces hn
        have hne : a.segments ≠ [] := Text.pieces_ne_nil _ _
        rcases joinWith_lt_or_overtaken hne hslash hac with hlt | hover
        · rw [joinWith_segments, joinWith_segments] at hlt
          exact absurd (Text.compare_eq_lt_iff.1 hca) (lt_asymm hlt)
        · exact absurd hover (hnone c hcmem hcstem)

theorem scanned_of_firstWithStem (hw : fs.WellFormed) {stem : String} {e : String × Path}
    (h : firstWithStem (walked fs root) stem = some e) : Scanned (build fs root) stem ⟨e.1, e.2⟩ := by
  have hwalked : e ∈ walked fs root := List.mem_of_find?_eq_some h
  have has {e : String × Path} (he : e ∈ walked fs root) :
      (e.2.stem?.map Text.lower == some stem) = true ↔ Text.lower (IndexedAsset.fileStem ⟨e.1, e.2⟩) = stem := by
    rw [(picture_of_mem_walked hw he).stem_eq (a := ⟨e.1, e.2⟩), Option.map_some, beq_iff_eq, Option.some.injEq]
  have hmem := mem_list_of_mem_walked hw hwalked
  have hstem := (has hwalked).1 (List.find?_eq_some_iff_append.1 h).1
  have hleast : ∀ b ∈ (build fs root).list, Text.lower b.fileStem = stem →
      b = ⟨e.1, e.2⟩ ∨ compare (IndexedAsset.segments ⟨e.1, e.2⟩) b.segments = .lt := by
    intro b hb hbstem
    have hbw := mem_walked_of_mem_list hb
    rcases least_of_find? (sorted_walked hw) h hbw ((has hbw).2 hbstem) with heq | hlt
    · exact .inl (by rw [← heq])
    · exact .inr hlt
  exact ⟨hmem, hstem, hleast, firstByStem_iff hw hmem hstem hleast⟩

/-- A scan finds a picture if and only if the index has one with the stem. It is the first one in the order of the
walk, and the first one of the index if and only if none with the stem overtakes it. -/
theorem scanned_in_walk_order (hw : fs.WellFormed) (root : Path) {reference : String}
    (hstem : (Path.splitName (lastSegment reference)).1 ≠ "") :
    (scanForStem fs (build fs root) reference = none ↔
        ∀ a ∈ (build fs root).list, Text.lower a.fileStem ≠ wantedStem reference) ∧
      ∀ r, scanForStem fs (build fs root) reference = some r →
        ∃ a, Scanned (build fs root) (wantedStem reference) a ∧ r = found a .directoryScan := by
  rw [scanForStem_build hw hstem]
  constructor
  · rw [Option.map_eq_none_iff, firstWithStem, List.find?_eq_none]
    constructor
    · intro hnone a ha hastem
      have hwalked := mem_walked_of_mem_list ha
      apply hnone _ hwalked
      rw [(picture_of_mem_walked hw hwalked).stem_eq, Option.map_some, hastem, beq_self_eq_true]
    · intro hnone e he heq
      rw [(picture_of_mem_walked hw he).stem_eq (a := ⟨e.1, e.2⟩), Option.map_some, beq_iff_eq,
        Option.some.injEq] at heq
      exact hnone _ (mem_list_of_mem_walked hw he) heq
  · intro r hr
    obtain ⟨e, he, rfl⟩ := Option.map_eq_some_iff.1 hr
    exact ⟨⟨e.1, e.2⟩, scanned_of_firstWithStem hw he, rfl⟩

/-- Two pictures with one stem, in directories with the names `a` and `a-b`. -/
def twoForests : FileSystem where
  nodes := .ofList [(["assets"], .directory), (["assets", "backgrounds"], .directory),
    (["assets", "backgrounds", "a"], .directory),
    (["assets", "backgrounds", "a", "forest.png"], .file (Bytes.ofList [1])),
    (["assets", "backgrounds", "a-b"], .directory),
    (["assets", "backgrounds", "a-b", "forest.png"], .file (Bytes.ofList [2]))]

/-- A reference that no earlier step takes: the scan finds the second picture of the index. -/
theorem scan_passes_over_first_of_index :
    twoForests.WellFormed ∧ (Path.splitName (lastSegment "forest")).1 ≠ "" ∧
      (build twoForests ⟨"assets"⟩).resolvePath twoForests "forest" =
        scanForStem twoForests (build twoForests ⟨"assets"⟩) "forest" ∧
      (build twoForests ⟨"assets"⟩).firstByStem "forest" =
        some ⟨"backgrounds/a-b/forest.png", ⟨"assets/backgrounds/a-b/forest.png"⟩⟩ ∧
      ∃ a, Scanned (build twoForests ⟨"assets"⟩) "forest" a ∧ a.relative = "backgrounds/a/forest.png" ∧
        scanForStem twoForests (build twoForests ⟨"assets"⟩) "forest" = some (found a .directoryScan) := by
  obtain ⟨hw, hstem, hfirst, hsteps, hfound⟩ :
      twoForests.WellFormed ∧ (Path.splitName (lastSegment "forest")).1 ≠ "" ∧
      (build twoForests ⟨"assets"⟩).firstByStem "forest" =
        some ⟨"backgrounds/a-b/forest.png", ⟨"assets/backgrounds/a-b/forest.png"⟩⟩ ∧
      (build twoForests ⟨"assets"⟩).resolvePath twoForests "forest" =
        scanForStem twoForests (build twoForests ⟨"assets"⟩) "forest" ∧
      (scanForStem twoForests (build twoForests ⟨"assets"⟩) "forest").map (·.relative) =
        some "backgrounds/a/forest.png" := by
    decide +kernel
  obtain ⟨r, hr, hrelative⟩ := Option.map_eq_some_iff.1 hfound
  obtain ⟨a, ha, rfl⟩ := (scanned_in_walk_order hw ⟨"assets"⟩ hstem).2 r hr
  exact ⟨hw, hstem, hsteps, hfirst, a, ha, hrelative, hr⟩

end AssetIndex

end StoryPress
