import Mathlib.Data.List.Nodup
import StoryPress.Proofs.Operations

/-!
# Files beside a place

What is written at a place leaves the files beside it as they are, and so what is read of them.

* `SameFile`: a path names the same file before and after, so reading it gives the same;
* `Beside`: files that differ at and below a site at most;
* `Beside.sameFile`, `Beside.sameFile_join`: a path to a file beside the site names the same file, if the way to
  it is steady;
* `Beside.walkedFiles_eq`: and a walk beside the site meets the same files.
-/

namespace StoryPress

namespace OrderedMap

variable {α β : Type} [Ord α] [Std.TransOrd α] [Std.LawfulEqOrd α]

/-- Pairs in key order are known by their members. -/
theorem eq_of_sorted {l m : List (α × β)} (hl : l.Pairwise fun p q => compare p.1 q.1 = .lt)
    (hm : m.Pairwise fun p q => compare p.1 q.1 = .lt) (h : ∀ p, p ∈ l ↔ p ∈ m) : l = m := by
  have nodup {l : List (α × β)} (hl : l.Pairwise fun p q => compare p.1 q.1 = .lt) : l.Nodup := by
    refine hl.imp fun {p q} hlt he => ?_
    rw [he, show compare q.1 q.1 = .eq from Std.ReflCmp.compare_self] at hlt
    cases hlt
  have hperm : l.Perm m := (List.perm_ext_iff_of_nodup (nodup hl) (nodup hm)).2 h
  refine hperm.eq_of_pairwise (fun p q _ _ hpq hqp => ?_) hl hm
  have hloop := Std.TransCmp.lt_trans hpq hqp
  rw [show compare p.1 p.1 = .eq from Std.ReflCmp.compare_self] at hloop
  cases hloop

theorem ext_get? {m m' : OrderedMap α β} (h : ∀ k, m.get? k = m'.get? k) : m = m' := by
  have hentries : m.entries = m'.entries :=
    eq_of_sorted m.sorted m'.sorted fun p => by rw [mem_entries_iff, mem_entries_iff, h]
  cases m
  cases m'
  congr

end OrderedMap

namespace FileSystem

/-- A path names the same file among both, or none among either. -/
def SameFile (fs fs' : FileSystem) (p : Path) : Prop :=
  ∀ c, fs'.stat p = .ok (.file c) ↔ fs.stat p = .ok (.file c)

theorem stat_eq_file_iff {fs : FileSystem} {p : Path} {c : ByteArray} :
    fs.stat p = .ok (.file c) ↔ p.text ≠ "" ∧ fs.Leads p ∧ fs.fileAt (fs.place p) = some c := by
  constructor
  · intro h
    obtain ⟨hl, hn⟩ := stat_eq_ok h
    refine ⟨?_, leads_of_locate hl, fileAt_eq_some_iff.2 hn⟩
    intro hempty
    simp [locate, hempty] at hl
  · rintro ⟨hne, hl, hc⟩
    exact stat_of_locate (hl.locate hne) (fileAt_eq_some_iff.1 hc)

theorem isFile_iff_stat {fs : FileSystem} {p : Path} : fs.isFile p = true ↔ ∃ c, fs.stat p = .ok (.file c) := by
  unfold isFile
  split
  · next c h => exact iff_of_true rfl ⟨c, h⟩
  · next h => exact iff_of_false (by simp) fun ⟨c, hc⟩ => h c hc

theorem readWithin_of_stat {fs : FileSystem} {p : Path} {c : ByteArray} (h : fs.stat p = .ok (.file c))
    {limit : Nat} (hlimit : c.size ≤ limit) : fs.readWithin limit p = .ok c := by
  simp [readWithin, h, Nat.not_lt.2 hlimit]

/-- A file that is found is read as it is, if it is within the limit. -/
theorem readWithin_iff {fs : FileSystem} {p : Path} {c b : ByteArray} {limit : Nat} (hfound : fs.isFile p = true)
    (hc : fs.fileAt (fs.place p) = some c) : fs.readWithin limit p = .ok b ↔ c.size ≤ limit ∧ b = c := by
  constructor
  · intro h
    obtain ⟨-, hb, hsize⟩ := readWithin_eq_ok h
    obtain rfl := Option.some.inj (hc.symm.trans hb)
    exact ⟨hsize, rfl⟩
  · rintro ⟨hsize, rfl⟩
    exact readWithin_of_stat (stat_of_locate (isFile_iff.1 hfound).1 (fileAt_eq_some_iff.1 hc)) hsize

namespace SameFile

variable {fs fs' : FileSystem} {p : Path}

theorem isFile_eq (h : SameFile fs fs' p) : fs'.isFile p = fs.isFile p := by
  rw [Bool.eq_iff_iff, isFile_iff_stat, isFile_iff_stat]
  exact exists_congr h

theorem readWithin_eq (h : SameFile fs fs' p) (hfile : fs.isFile p = true) (limit : Nat) :
    fs'.readWithin limit p = fs.readWithin limit p := by
  obtain ⟨c, hc⟩ := isFile_iff_stat.1 hfile
  simp only [readWithin, hc, (h c).2 hc]

theorem readWithin (h : SameFile fs fs' p) {limit : Nat} {bytes : ByteArray}
    (hr : fs.readWithin limit p = .ok bytes) : fs'.readWithin limit p = .ok bytes := by
  obtain ⟨hl, hfile, -⟩ := readWithin_eq_ok hr
  rw [h.readWithin_eq (isFile_iff.2 ⟨hl, by simp [hfile]⟩), hr]

end SameFile

/-! ## Walks -/

/-- The content of an entry that is a file. -/
def fileEntry? : Location × Node → Option (Location × ByteArray)
  | (k, .file content) => some (k, content)
  | (_, .directory) => none

theorem mem_fileEntries_iff {fs : FileSystem} {l k : Location} {c : ByteArray} :
    (k, c) ∈ (fs.below l).filterMap fileEntry? ↔ ∃ ns, ns ≠ [] ∧ k = l ++ ns ∧ fs.fileAt k = some c := by
  simp only [List.mem_filterMap, fileAt_eq_some_iff]
  constructor
  · rintro ⟨⟨k', n⟩, hmem, he⟩
    obtain ⟨ns, hne, hk, hn⟩ := mem_below_iff.1 hmem
    cases n with
    | directory => cases he
    | file c' =>
      obtain ⟨rfl, rfl⟩ := Prod.mk.inj (Option.some.inj he)
      exact ⟨ns, hne, hk, hn⟩
  · rintro ⟨ns, hne, hk, hn⟩
    exact ⟨(k, .file c), mem_below_iff.2 ⟨ns, hne, hk, hn⟩, rfl⟩

theorem sorted_fileEntries (fs : FileSystem) (l : Location) :
    ((fs.below l).filterMap fileEntry?).Pairwise fun p q => compare p.1 q.1 = .lt := by
  refine List.pairwise_filterMap.2 ((fs.nodes.sorted.filter _).imp ?_)
  rintro ⟨k, n⟩ ⟨k', n'⟩ hlt b hb b' hb'
  cases n <;> cases n' <;> cases hb <;> cases hb'
  exact hlt

theorem filesBelow_eq_map (fs : FileSystem) (l : Location) :
    fs.filesBelow l = ((fs.below l).filterMap fileEntry?).map fun (k, c) => (k.drop l.length, c) := by
  rw [filesBelow, List.map_filterMap]
  refine List.filterMap_congr ?_
  rintro ⟨k, n⟩ -
  cases n <;> rfl

/-- The files below a location are known by their contents. -/
theorem filesBelow_congr {fs fs' : FileSystem} {l : Location}
    (h : ∀ ns, ns ≠ [] → fs'.fileAt (l ++ ns) = fs.fileAt (l ++ ns)) : fs'.filesBelow l = fs.filesBelow l := by
  have hfiles : (fs'.below l).filterMap fileEntry? = (fs.below l).filterMap fileEntry? := by
    refine OrderedMap.eq_of_sorted (sorted_fileEntries fs' l) (sorted_fileEntries fs l) ?_
    rintro ⟨k, c⟩
    rw [mem_fileEntries_iff, mem_fileEntries_iff]
    refine exists_congr fun ns => and_congr_right fun hne => and_congr_right fun hk => ?_
    rw [hk, h ns hne]
  rw [filesBelow_eq_map, filesBelow_eq_map, hfiles]

/-- The files of a walk; none if the path leads to no directory. -/
def walkedFiles (fs : FileSystem) (dir : Path) : List (Path × ByteArray) :=
  (if fs.isDirectory dir then fs.walkFiles dir else .ok []).toOption.getD []

theorem walkedFiles_eq {fs : FileSystem} (hw : fs.WellFormed) (dir : Path) :
    fs.walkedFiles dir =
      if fs.isDirectory dir then
        (fs.filesBelow (fs.place dir)).map fun (ns, c) => (dir.join (Text.joinWith "/" ns), c)
      else [] := by
  unfold walkedFiles
  split
  · next hd =>
    rw [walkFiles_eq hw hd]
    rfl
  · rfl

theorem isDirectory_iff_leads {fs : FileSystem} {p : Path} :
    fs.isDirectory p = true ↔ p.text ≠ "" ∧ fs.Leads p ∧ fs.node? (fs.place p) = some .directory := by
  rw [isDirectory_iff]
  constructor
  · rintro ⟨hl, hn⟩
    refine ⟨?_, leads_of_locate hl, hn⟩
    intro hempty
    simp [locate, hempty] at hl
  · rintro ⟨hne, hl, hn⟩
    exact ⟨hl.locate hne, hn⟩

/-- A path that does not go up, or that leads somewhere among both or among neither. -/
def Steady (fs fs' : FileSystem) (p : Path) : Prop := ".." ∉ p.segments ∨ (fs'.Leads p ↔ fs.Leads p)

theorem Steady.symm {fs fs' : FileSystem} {p : Path} (h : Steady fs fs' p) : Steady fs' fs p := h.imp_right Iff.symm

/-- Files that differ at and below a location at most. -/
structure Beside (site : Location) (fs fs' : FileSystem) : Prop where
  before : fs.WellFormed
  after : fs'.WellFormed
  here_eq : fs'.here = fs.here
  fileAt_eq : ∀ l, ¬site <+: l → fs'.fileAt l = fs.fileAt l

namespace Beside

variable {site : Location} {fs fs' : FileSystem}

theorem symm (h : Beside site fs fs') : Beside site fs' fs :=
  ⟨h.after, h.before, h.here_eq.symm, fun l hl => (h.fileAt_eq l hl).symm⟩

theorem origin_eq (h : Beside site fs fs') (p : Path) : fs'.origin p = fs.origin p := by
  simp only [origin, h.here_eq]

theorem place_eq (h : Beside site fs fs') (p : Path) : fs'.place p = fs.place p := by
  simp only [place, h.origin_eq]

/-- The way to a file does not change with it, if it does not go up. -/
theorem follow (h : Beside site fs fs') {l m : Location} {segments : List String} (hup : ".." ∉ segments)
    (hf : fs.follow l segments = .ok m) (hfile : (fs.fileAt m).isSome) (hm : ¬site <+: m) :
    fs'.follow l segments = .ok m := by
  have hfile' : (fs'.fileAt m).isSome := by rwa [h.fileAt_eq m hm]
  obtain ⟨c, hc⟩ := Option.isSome_iff_exists.1 hfile
  obtain ⟨c', hc'⟩ := Option.isSome_iff_exists.1 hfile'
  induction segments generalizing l with
  | nil => exact follow_nil_eq_ok.2 ⟨(follow_nil_eq_ok.1 hf).1, by
      rw [(follow_nil_eq_ok.1 hf).1, fileAt_eq_some_iff.1 hc']; rfl⟩
  | cons s rest ih =>
    have hplace := follow_eq_foldl hf
    rw [foldl_enter_of_isName fun n hn hd => hup (hd ▸ (List.mem_filter.1 hn).1)] at hplace
    obtain ⟨hd, hrest⟩ := follow_cons_eq_ok.1 hf
    refine follow_cons_eq_ok.2 ⟨?_, ih (fun hd => hup (List.mem_cons_of_mem _ hd)) hrest⟩
    by_cases hnames : (s :: rest).filter (fun s => !Path.isFiller s) = []
    · -- only fillers are left, and a file is no directory
      rw [hnames, List.append_nil] at hplace
      rw [hplace, fileAt_eq_some_iff, hd] at hc
      cases hc
    · rw [hplace] at hc'
      exact h.after.node?_of_append hnames (fileAt_eq_some_iff.1 hc')

variable (h : Beside site fs fs')
include h

theorem leads {p : Path} (hs : Steady fs fs' p) (hout : ¬site <+: fs.place p)
    (hfile : (fs.fileAt (fs.place p)).isSome) (hl : fs.Leads p) : fs'.Leads p := by
  rcases hs with hup | hiff
  · unfold Leads
    rw [h.place_eq, h.origin_eq]
    exact h.follow hup hl hfile hout
  · exact hiff.2 hl

/-- Below a path that leads to the same place among both, so does a path that does not go up. -/
theorem leads_join {dir : Path} {rel : String} (hs : Steady fs fs' dir) (hrel : Path.startsAtRoot rel = false)
    (hup : ".." ∉ Text.pieces '/' rel) (hout : ¬site <+: fs.place (dir.join rel))
    (hfile : (fs.fileAt (fs.place (dir.join rel))).isSome) (hl : fs.Leads (dir.join rel)) :
    fs'.Leads (dir.join rel) := by
  obtain ⟨before, hj, hd⟩ := Path.segments_join hrel dir
  rcases hs with hnever | hiff
  · refine h.leads (.inl ?_) hout hfile hl
    rw [hj, List.mem_append, not_or]
    refine ⟨fun hmem => hnever ?_, hup⟩
    rcases hd with hd | hd <;> rw [hd]
    · exact hmem
    · exact List.mem_append_left _ hmem
  · obtain ⟨hdir, -⟩ := leads_of_join hrel hl
    have hdir' := (hiff.2 hdir).follow_before hd
    have horigin (fs : FileSystem) : fs.origin (dir.join rel) = fs.origin dir := by
      simp only [origin, Path.isAbsolute_join hrel]
    have hrest : fs.follow (fs.place dir) (Text.pieces '/' rel) = .ok (fs.place (dir.join rel)) := by
      have hl' : fs.follow (fs.origin (dir.join rel)) (dir.join rel).segments = .ok (fs.place (dir.join rel)) := hl
      rwa [hj, horigin, follow_append (hdir.follow_before hd)] at hl'
    unfold Leads
    rw [hj, horigin, follow_append hdir', h.place_eq, h.place_eq]
    exact h.follow hup hrest hfile hout

theorem sameFile_of_leads {p : Path} (hout : ¬site <+: fs.place p)
    (hleads : (fs.fileAt (fs.place p)).isSome → (fs'.Leads p ↔ fs.Leads p)) : SameFile fs fs' p := by
  intro c
  rw [stat_eq_file_iff, stat_eq_file_iff, h.place_eq, h.fileAt_eq _ hout]
  refine and_congr_right fun _ => and_congr_left fun hc => hleads ?_
  rw [hc]
  rfl

theorem sameFile {p : Path} (hs : Steady fs fs' p) (hout : ¬site <+: fs.place p) : SameFile fs fs' p := by
  refine h.sameFile_of_leads hout fun hfile => ⟨?_, h.leads hs hout hfile⟩
  refine h.symm.leads hs.symm ?_ ?_
  · rwa [h.place_eq]
  · rwa [h.place_eq, h.fileAt_eq _ hout]

theorem sameFile_join {dir : Path} {rel : String} (hs : Steady fs fs' dir)
    (hrel : Path.startsAtRoot rel = false) (hup : ".." ∉ Text.pieces '/' rel)
    (hout : ¬site <+: fs.place (dir.join rel)) : SameFile fs fs' (dir.join rel) := by
  refine h.sameFile_of_leads hout fun hfile => ⟨?_, h.leads_join hs hrel hup hout hfile⟩
  refine h.symm.leads_join hs.symm hrel hup ?_ ?_
  · rwa [h.place_eq]
  · rwa [h.place_eq, h.fileAt_eq _ hout]

/-- The files below a place beside the site are the same. -/
theorem filesBelow_eq {l : Location} (hout : ∀ ns, ¬site <+: l ++ ns) : fs'.filesBelow l = fs.filesBelow l :=
  filesBelow_congr fun ns _ => h.fileAt_eq _ (hout ns)

/-- A walk meets the same files. -/
theorem walkedFiles_eq {dir : Path} (hs : Steady fs fs' dir) (hout : ∀ ns, ¬site <+: fs.place dir ++ ns) :
    fs'.walkedFiles dir = fs.walkedFiles dir := by
  rw [FileSystem.walkedFiles_eq h.after, FileSystem.walkedFiles_eq h.before, h.place_eq, h.filesBelow_eq hout]
  by_cases hnone : fs.filesBelow (fs.place dir) = []
  · simp [hnone]
  · -- there is a file below, so both have the directory
    obtain ⟨⟨ns, c⟩, hmem⟩ := List.exists_mem_of_ne_nil _ hnone
    have hdir {fs : FileSystem} (hw : fs.WellFormed) (hmem : (ns, c) ∈ fs.filesBelow (fs.place dir)) :
        fs.node? (fs.place dir) = some .directory := by
      obtain ⟨hne, hc⟩ := mem_filesBelow_iff.1 hmem
      exact hw.node?_of_append hne (fileAt_eq_some_iff.1 hc)
    have hbefore := hdir h.before hmem
    have hafter : fs'.node? (fs'.place dir) = some .directory :=
      hdir h.after (by rwa [h.place_eq, h.filesBelow_eq hout])
    have hleads : fs'.Leads dir ↔ fs.Leads dir := by
      rcases hs with hup | hiff
      · exact iff_of_true (leads_of_directory h.after hup hafter) (leads_of_directory h.before hup hbefore)
      · exact hiff
    have hiff : fs'.isDirectory dir = fs.isDirectory dir := by
      rw [Bool.eq_iff_iff, isDirectory_iff_leads, isDirectory_iff_leads, hleads]
      simp only [hbefore, hafter, and_true]
    rw [hiff]

end Beside
end FileSystem

end StoryPress
