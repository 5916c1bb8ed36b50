import Mathlib.Data.List.Basic
import StoryPress.FileSystem.Walk
import StoryPress.Proofs.Segments

/-!
# Places

A path leads to one place, whatever the file system holds: fillers stay, two periods go up, a name goes down.

* `locate_eq_place`: what the file system finds for a path is at its place;
* `WellFormed`: entries have names and lie in directories;
* `mem_walkFiles_iff`: a walk lists the files below a directory, by paths that join their names.
-/

namespace StoryPress.FileSystem

/-- The place reached by one more name. -/
def enter (l : Location) (s : String) : Location := if s = ".." then l.dropLast else l ++ [s]

/-- The place that a path leads to. -/
def place (fs : FileSystem) (p : Path) : Location := p.names.foldl enter (fs.origin p)

theorem foldl_enter_of_isName {ns : List String} (h : ∀ n ∈ ns, n ≠ "..") (l : Location) :
    ns.foldl enter l = l ++ ns := by
  induction ns generalizing l with
  | nil => simp
  | cons n ns ih =>
    rw [List.foldl_cons, ih fun x hx => h x (by simp [hx])]
    simp [enter, h n]

/-- Where one segment leads. -/
def advance (l : Location) (s : String) : Location := if Path.isFiller s then l else enter l s

theorem follow_cons {fs : FileSystem} {l : Location} (h : fs.node? l = some .directory) (s : String)
    (rest : List String) : fs.follow l (s :: rest) = fs.follow (advance l s) rest := by
  simp only [follow, h, advance, enter]
  by_cases hs : Path.isFiller s = true
  · simp [hs]
  · simp only [hs, Bool.false_eq_true, if_false]
    split <;> rfl

theorem follow_cons_eq_ok {fs : FileSystem} {l m : Location} {s : String} {rest : List String} :
    fs.follow l (s :: rest) = .ok m ↔
      fs.node? l = some .directory ∧ fs.follow (advance l s) rest = .ok m := by
  cases hn : fs.node? l with
  | none => simp [follow, hn]
  | some n =>
    cases n with
    | file c => simp [follow, hn]
    | directory => simp [follow_cons hn]

theorem follow_nil_eq_ok {fs : FileSystem} {l m : Location} :
    fs.follow l [] = .ok m ↔ l = m ∧ (fs.node? l).isSome := by
  simp only [follow]
  split <;> simp_all

theorem foldl_advance (segments : List String) (l : Location) :
    segments.foldl advance l = (segments.filter fun s => !Path.isFiller s).foldl enter l := by
  induction segments generalizing l with
  | nil => rfl
  | cons s rest ih =>
    by_cases hs : Path.isFiller s = true <;> simp [advance, hs, ih]

theorem follow_eq_foldl {fs : FileSystem} {l m : Location} {segments : List String}
    (h : fs.follow l segments = .ok m) :
    m = (segments.filter fun s => !Path.isFiller s).foldl enter l := by
  rw [← foldl_advance]
  induction segments generalizing l with
  | nil => exact (follow_nil_eq_ok.1 h).1.symm
  | cons s rest ih => exact ih (follow_cons_eq_ok.1 h).2

theorem node?_of_follow {fs : FileSystem} {l m : Location} {segments : List String}
    (h : fs.follow l segments = .ok m) : (fs.node? m).isSome := by
  induction segments generalizing l with
  | nil =>
    obtain ⟨rfl, hs⟩ := follow_nil_eq_ok.1 h
    exact hs
  | cons s rest ih => exact ih (follow_cons_eq_ok.1 h).2

theorem locate_eq_place {fs : FileSystem} {p : Path} {l : Location} (h : fs.locate p = .ok l) :
    l = fs.place p := by
  simp only [locate] at h
  split at h
  · cases h
  · exact follow_eq_foldl h

theorem stat_eq_ok {fs : FileSystem} {p : Path} {n : Node} (h : fs.stat p = .ok n) :
    fs.locate p = .ok (fs.place p) ∧ fs.node? (fs.place p) = some n := by
  simp only [stat] at h
  cases hl : fs.locate p with
  | error e => simp [hl, bind, Except.bind] at h
  | ok l =>
    obtain rfl := locate_eq_place hl
    simp only [hl, bind, Except.bind] at h
    split at h
    · next hn => exact ⟨rfl, by simpa [hn] using h⟩
    · cases h

theorem stat_of_locate {fs : FileSystem} {p : Path} {n : Node} (hl : fs.locate p = .ok (fs.place p))
    (hn : fs.node? (fs.place p) = some n) : fs.stat p = .ok n := by
  simp [stat, hl, hn, bind, Except.bind]

/-- The content of the file at a location. -/
def fileAt (fs : FileSystem) (l : Location) : Option ByteArray :=
  match fs.node? l with
  | some (.file content) => some content
  | _ => none

theorem fileAt_eq_some_iff {fs : FileSystem} {l : Location} {c : ByteArray} :
    fs.fileAt l = some c ↔ fs.node? l = some (.file c) := by
  unfold fileAt
  split <;> simp_all

theorem isFile_iff {fs : FileSystem} {p : Path} :
    fs.isFile p = true ↔ fs.locate p = .ok (fs.place p) ∧ (fs.fileAt (fs.place p)).isSome := by
  constructor
  · intro h
    unfold isFile at h
    split at h
    · next c hs =>
      obtain ⟨hl, hn⟩ := stat_eq_ok hs
      exact ⟨hl, by simp [fileAt, hn]⟩
    · cases h
  · rintro ⟨hl, hc⟩
    obtain ⟨c, hc⟩ := Option.isSome_iff_exists.1 hc
    simp [isFile, stat_of_locate hl (fileAt_eq_some_iff.1 hc)]

theorem isDirectory_iff {fs : FileSystem} {p : Path} :
    fs.isDirectory p = true ↔
      fs.locate p = .ok (fs.place p) ∧ fs.node? (fs.place p) = some .directory := by
  constructor
  · intro h
    unfold isDirectory at h
    split at h
    · next hs => exact stat_eq_ok hs
    · cases h
  · rintro ⟨hl, hn⟩
    simp [isDirectory, stat_of_locate hl hn]

/-- A path below a directory leads to a place below it. -/
theorem place_join {rel : String} (h : Path.startsAtRoot rel = false) (fs : FileSystem) (dir : Path) :
    fs.place (dir.join rel) = (⟨rel⟩ : Path).names.foldl enter (fs.place dir) := by
  simp only [place, origin, Path.isAbsolute_join h, Path.names_join h, List.foldl_append]

theorem place_join_names {ns : List String} (hne : ns ≠ []) (h : ∀ n ∈ ns, Path.IsName n)
    (fs : FileSystem) (dir : Path) :
    fs.place (dir.join (Text.joinWith "/" ns)) = fs.place dir ++ ns := by
  rw [place_join (Path.startsAtRoot_joinNames hne h), Path.names_joinNames hne h,
    foldl_enter_of_isName fun n hn => (h n hn).2.2.1]

/-! ## Entries -/

/-- Entries have names, and lie in directories. -/
structure WellFormed (fs : FileSystem) : Prop where
  named : ∀ e ∈ fs.nodes.entries, e.1 ≠ [] ∧ ∀ s ∈ e.1, Path.IsName s
  housed : ∀ e ∈ fs.nodes.entries, fs.node? e.1.dropLast = some .directory

instance (fs : FileSystem) : Decidable fs.WellFormed :=
  decidable_of_iff
    ((∀ e ∈ fs.nodes.entries, e.1 ≠ [] ∧ ∀ s ∈ e.1, Path.IsName s) ∧
      ∀ e ∈ fs.nodes.entries, fs.node? e.1.dropLast = some .directory)
    ⟨fun h => ⟨h.1, h.2⟩, fun h => ⟨h.named, h.housed⟩⟩

theorem get?_eq_node? {fs : FileSystem} {l : Location} (h : l ≠ []) : fs.nodes.get? l = fs.node? l := by
  simp [node?, h]

theorem mem_entries_of_node? {fs : FileSystem} {l : Location} {n : Node} (hl : l ≠ [])
    (h : fs.node? l = some n) : (l, n) ∈ fs.nodes.entries :=
  OrderedMap.mem_entries_iff.2 (by simpa [get?_eq_node? hl] using h)

theorem WellFormed.isName {fs : FileSystem} (hw : fs.WellFormed) {l : Location} {n : Node}
    (h : fs.node? l = some n) : ∀ s ∈ l, Path.IsName s := by
  intro s hs
  have hl : l ≠ [] := List.ne_nil_of_mem hs
  exact (hw.named _ (mem_entries_of_node? hl h)).2 s hs

theorem WellFormed.node?_dropLast {fs : FileSystem} (hw : fs.WellFormed) {l : Location} {n : Node}
    (h : fs.node? l = some n) : l = [] ∨ fs.node? l.dropLast = some .directory := by
  by_cases hl : l = []
  · exact .inl hl
  · exact .inr (hw.housed _ (mem_entries_of_node? hl h))

/-- Everything above an entry is a directory. -/
theorem WellFormed.node?_of_append {fs : FileSystem} (hw : fs.WellFormed) {l : Location}
    {ns : List String} {n : Node} (hne : ns ≠ []) (h : fs.node? (l ++ ns) = some n) :
    fs.node? l = some .directory := by
  induction ns generalizing l with
  | nil => exact absurd rfl hne
  | cons s rest ih =>
    have up {m : Node} (hm : fs.node? (l ++ [s]) = some m) : fs.node? l = some .directory := by
      simpa using hw.node?_dropLast hm
    cases rest with
    | nil => exact up h
    | cons t rest => exact up (ih (by simp) (show fs.node? (l ++ [s] ++ t :: rest) = some n by simpa using h))

theorem mem_below_iff {fs : FileSystem} {l k : Location} {n : Node} :
    (k, n) ∈ fs.below l ↔ ∃ ns, ns ≠ [] ∧ k = l ++ ns ∧ fs.node? k = some n := by
  simp only [below, List.mem_filter, OrderedMap.mem_entries_iff, Bool.and_eq_true, bne_iff_ne,
    List.isPrefixOf_iff_prefix]
  constructor
  · rintro ⟨hn, ⟨ns, rfl⟩, hlen⟩
    have hns : ns ≠ [] := by rintro rfl; simp at hlen
    exact ⟨ns, hns, rfl, by simpa [get?_eq_node?, hns] using hn⟩
  · rintro ⟨ns, hns, rfl, hn⟩
    exact ⟨by simpa [get?_eq_node?, hns] using hn, List.prefix_append _ _, by simpa using hns⟩

/-- The files below a location, by their names from there. -/
def filesBelow (fs : FileSystem) (l : Location) : List (List String × ByteArray) :=
  (fs.below l).filterMap fun (k, n) =>
    match n with
    | .file content => some (k.drop l.length, content)
    | .directory => none

theorem mem_filesBelow_iff {fs : FileSystem} {l : Location} {ns : List String} {c : ByteArray} :
    (ns, c) ∈ fs.filesBelow l ↔ ns ≠ [] ∧ fs.fileAt (l ++ ns) = some c := by
  simp only [filesBelow, List.mem_filterMap, Prod.exists, fileAt_eq_some_iff]
  constructor
  · rintro ⟨k, n, hk, hn⟩
    obtain ⟨ms, hne, rfl, hm⟩ := mem_below_iff.1 hk
    cases n with
    | directory => cases hn
    | file content =>
      simp only [List.drop_left, Option.some.injEq, Prod.mk.injEq] at hn
      obtain ⟨rfl, rfl⟩ := hn
      exact ⟨hne, hm⟩
  · rintro ⟨hne, hc⟩
    exact ⟨l ++ ns, .file c, mem_below_iff.2 ⟨ns, hne, rfl, hc⟩, by simp⟩

/-- No names are listed twice. -/
theorem nodup_filesBelow (fs : FileSystem) (l : Location) : ((fs.filesBelow l).map (·.1)).Nodup := by
  have hkeys : (fs.below l).Pairwise fun e e' => e.1 ≠ e'.1 := by
    refine List.Pairwise.filter _ (fs.nodes.sorted.imp ?_)
    intro e e' h he
    rw [he, show compare e'.1 e'.1 = .eq from Std.ReflCmp.compare_self] at h
    cases h
  unfold filesBelow List.Nodup
  rw [List.pairwise_map, List.pairwise_filterMap]
  apply hkeys.imp_of_mem
  intro e e' hm hm' hne b hb b' hb'
  obtain ⟨ns, -, hk, -⟩ := mem_below_iff.1 (show (e.1, e.2) ∈ fs.below l from hm)
  obtain ⟨ns', -, hk', -⟩ := mem_below_iff.1 (show (e'.1, e'.2) ∈ fs.below l from hm')
  have names {e : Location × Node} {ns : List String} {b : List String × ByteArray} (hk : e.1 = l ++ ns)
      (hb : (match e.2 with
        | .file content => some (e.1.drop l.length, content)
        | .directory => none) = some b) : b.1 = ns := by
    split at hb
    · obtain rfl := Option.some.inj hb
      simp [hk]
    · cases hb
  rw [names hk hb, names hk' hb']
  rintro rfl
  exact hne (hk.trans hk'.symm)

/-- A walk from a directory lists the files below it, by paths that join their names. -/
theorem walkFiles_eq {fs : FileSystem} (hw : fs.WellFormed) {dir : Path} (h : fs.isDirectory dir = true) :
    fs.walkFiles dir =
      .ok ((fs.filesBelow (fs.place dir)).map fun (ns, c) => (dir.join (Text.joinWith "/" ns), c)) := by
  obtain ⟨hl, hn⟩ := isDirectory_iff.1 h
  have hwalk : fs.walk dir = .ok (⟨dir, fs.place dir, .directory⟩ ::
      (fs.below (fs.place dir)).map fun (k, m) => ⟨pathBelow dir (k.drop (fs.place dir).length), k, m⟩) := by
    simp [walk, hl, hn, bind, Except.bind, pure, Except.pure]
  have hfiles : fs.walkFiles dir = (fs.walk dir).map fun entries => entries.filterMap fun e =>
      match e.node with
      | .file content => some (e.path, content)
      | .directory => none := by
    unfold walkFiles
    cases fs.walk dir <;> rfl
  rw [hfiles, hwalk]
  refine congrArg Except.ok ?_
  simp only [List.filterMap_cons, List.filterMap_map, filesBelow, List.map_filterMap]
  apply List.filterMap_congr
  rintro ⟨k, n⟩ hk
  obtain ⟨ns, hne, rfl, hm⟩ := mem_below_iff.1 hk
  cases n with
  | directory => rfl
  | file content =>
    have hns : ∀ n ∈ ns, Path.IsName n := fun n hx => hw.isName hm n (by simp [hx])
    simp [pathBelow, Path.foldl_join hne hns]

theorem mem_walkFiles_iff {fs : FileSystem} (hw : fs.WellFormed) {dir : Path}
    (h : fs.isDirectory dir = true) :
    ∃ files, fs.walkFiles dir = .ok files ∧ ∀ p c, (p, c) ∈ files ↔
      ∃ ns, ns ≠ [] ∧ (∀ n ∈ ns, Path.IsName n) ∧ fs.fileAt (fs.place dir ++ ns) = some c ∧
        p = dir.join (Text.joinWith "/" ns) := by
  refine ⟨_, walkFiles_eq hw h, ?_⟩
  intro p c
  simp only [List.mem_map, Prod.exists, mem_filesBelow_iff, Prod.mk.injEq]
  constructor
  · rintro ⟨ns, _, ⟨hne, hc⟩, rfl, rfl⟩
    exact ⟨ns, hne, fun n hn => hw.isName (fileAt_eq_some_iff.1 hc) n (by simp [hn]), hc, rfl⟩
  · rintro ⟨ns, hne, -, hc, rfl⟩
    exact ⟨ns, c, ⟨hne, hc⟩, rfl, rfl⟩

end StoryPress.FileSystem
