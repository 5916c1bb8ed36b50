import StoryPress.Failure
import StoryPress.Proofs.Outcome
import StoryPress.Proofs.Place

/-!
# What operations do to files

* `slot_eq_entry`: a new entry is made at the place of its path, in a directory (`NamesEntry`);
* `put_of_makeDirectory`, `put_of_write`, `drop_of_removeFile`: what a successful operation asked and did;
* `Extends`: more directories, and no fewer files; paths that led somewhere still do (`Extends.follow`);
* `grows_makeDirectories`, `places_write`, `places_copy`: what is made, and that nothing else changes;
* `removeFile_eq_ok`, `shrinks_sweep`: what is taken away.
-/

namespace StoryPress.FileSystem

theorem node?_put {fs : FileSystem} {l : Location} (hl : l ≠ []) (n : Node) (k : Location) :
    (fs.put l n).node? k = if k = l then some n else fs.node? k := by
  by_cases hk : k = []
  · subst hk
    simp [node?, Ne.symm hl]
  · simp [node?, hk, put, OrderedMap.get?_insert]

theorem node?_drop (fs : FileSystem) (l k : Location) :
    (fs.drop l).node? k = if k = l ∧ k ≠ [] then none else fs.node? k := by
  by_cases hk : k = []
  · simp [node?, hk]
  · simp [node?, hk, drop, OrderedMap.get?_erase]

theorem WellFormed.put {fs : FileSystem} (hw : fs.WellFormed) {dir : Location} {s : String} {n : Node}
    (hdir : fs.node? dir = some .directory) (hs : Path.IsName s)
    (hn : n = .directory ∨ fs.node? (dir ++ [s]) ≠ some .directory) : (fs.put (dir ++ [s]) n).WellFormed := by
  have hl : dir ++ [s] ≠ [] := by simp
  have old {k : Location} {m : Node} (h : (k, m) ∈ (fs.put (dir ++ [s]) n).nodes.entries) (hk : k ≠ dir ++ [s]) :
      (k, m) ∈ fs.nodes.entries := by
    rw [OrderedMap.mem_entries_iff] at h ⊢
    simpa [FileSystem.put, OrderedMap.get?_insert, Std.compare_eq_iff_eq, hk] using h
  constructor
  · rintro ⟨k, m⟩ h
    by_cases hk : k = dir ++ [s]
    · subst hk
      refine ⟨hl, ?_⟩
      intro t ht
      rcases List.mem_append.1 ht with ht | ht
      · exact hw.isName hdir t ht
      · exact List.mem_singleton.1 ht ▸ hs
    · exact hw.named _ (old h hk)
  · rintro ⟨k, m⟩ h
    rw [node?_put hl]
    by_cases hk : k = dir ++ [s]
    · subst hk
      simpa using hdir
    · have hhouse := hw.housed _ (old h hk)
      split
      · next he =>
        -- the new entry is above an old one, so it is a directory
        rcases hn with rfl | hn
        · rfl
        · exact absurd (he ▸ hhouse) hn
      · exact hhouse

theorem WellFormed.drop {fs : FileSystem} (hw : fs.WellFormed) {l : Location}
    (h : ∀ s, fs.node? (l ++ [s]) = none) : (fs.drop l).WellFormed := by
  have old {e : Location × Node} (he : e ∈ (fs.drop l).nodes.entries) : e ∈ fs.nodes.entries :=
    (List.mem_filter.1 he).1
  constructor
  · exact fun e he => hw.named e (old he)
  · intro e he
    rw [node?_drop]
    have hhouse := hw.housed e (old he)
    split
    · next hl =>
      obtain ⟨hne, -⟩ := hw.named e (old he)
      have hnone := h (e.1.getLast hne)
      rw [← hl.1, List.dropLast_concat_getLast hne, ← get?_eq_node? hne,
        OrderedMap.mem_entries_iff.1 (old he)] at hnone
      cases hnone
    · exact hhouse

/-! ## Following paths -/

/-- Every step of a path can be taken. -/
def Leads (fs : FileSystem) (p : Path) : Prop := fs.follow (fs.origin p) p.segments = .ok (fs.place p)

theorem follow_append {fs : FileSystem} {l m : Location} {a : List String} (h : fs.follow l a = .ok m)
    (b : List String) : fs.follow l (a ++ b) = fs.follow m b := by
  induction a generalizing l with
  | nil =>
    obtain ⟨rfl, -⟩ := follow_nil_eq_ok.1 h
    rfl
  | cons s a ih =>
    obtain ⟨hd, h⟩ := follow_cons_eq_ok.1 h
    rw [← ih h, List.cons_append, follow_cons hd]

/-- A path that can be followed to its end can be followed to a directory on the way. -/
theorem follow_of_append {fs : FileSystem} {l m : Location} {a b : List String} (hb : b ≠ [])
    (h : fs.follow l (a ++ b) = .ok m) : ∃ k, fs.follow l a = .ok k ∧ fs.node? k = some .directory := by
  induction a generalizing l with
  | nil =>
    obtain ⟨s, rest, rfl⟩ := List.exists_cons_of_ne_nil hb
    obtain ⟨hd, -⟩ := follow_cons_eq_ok.1 h
    exact ⟨l, follow_nil_eq_ok.2 ⟨rfl, by simp [hd]⟩, hd⟩
  | cons s a ih =>
    obtain ⟨hd, h⟩ := follow_cons_eq_ok.1 h
    obtain ⟨k, hk, hdir⟩ := ih h
    exact ⟨k, follow_cons_eq_ok.2 ⟨hd, hk⟩, hdir⟩

theorem follow_filler {fs : FileSystem} {l : Location} (h : fs.node? l = some .directory) :
    fs.follow l [""] = .ok l := by
  rw [follow_cons_eq_ok, follow_nil_eq_ok]
  exact ⟨h, rfl, by simp [advance, show Path.isFiller "" = true from rfl, h]⟩

theorem leads_of_locate {fs : FileSystem} {p : Path} {l : Location} (h : fs.locate p = .ok l) : fs.Leads p := by
  obtain rfl := locate_eq_place h
  unfold locate at h
  split at h
  · cases h
  · exact h

theorem Leads.locate {fs : FileSystem} {p : Path} (h : fs.Leads p) (hne : p.text ≠ "") :
    fs.locate p = .ok (fs.place p) := by
  have hfollow : fs.follow (fs.origin p) p.segments = .ok (fs.place p) := h
  simpa [FileSystem.locate, hne] using hfollow

/-- The segments of a path that leads somewhere can be followed as far as something can be joined to it. -/
theorem Leads.follow_before {fs : FileSystem} {dir : Path} (h : fs.Leads dir) {before : List String}
    (hd : dir.segments = before ∨ dir.segments = before ++ [""]) :
    fs.follow (fs.origin dir) before = .ok (fs.place dir) := by
  unfold Leads at h
  rcases hd with hd | hd
  · rwa [hd] at h
  · rw [hd] at h
    obtain ⟨k, hk, hdir⟩ := follow_of_append (by simp) h
    rw [follow_append hk, follow_filler hdir] at h
    rw [hk, h]

/-- What leads below a directory leads to the directory. -/
theorem leads_of_join {fs : FileSystem} {dir : Path} {rel : String} (hrel : Path.startsAtRoot rel = false)
    (h : fs.Leads (dir.join rel)) : fs.Leads dir ∧ fs.node? (fs.place dir) = some .directory := by
  obtain ⟨before, hj, hd⟩ := Path.segments_join hrel dir
  have horigin : fs.origin (dir.join rel) = fs.origin dir := by
    simp only [origin, Path.isAbsolute_join hrel]
  unfold Leads at h
  rw [hj, horigin] at h
  obtain ⟨k, hk, hdir⟩ := follow_of_append (Text.pieces_ne_nil _ _) h
  have hfollow : fs.follow (fs.origin dir) dir.segments = .ok k := by
    rcases hd with hd | hd
    · rw [hd, hk]
    · rw [hd, follow_append hk, follow_filler hdir]
  obtain rfl : k = fs.place dir := follow_eq_foldl hfollow
  exact ⟨hfollow, hdir⟩

theorem follow_names {fs : FileSystem} (hw : fs.WellFormed) {ns : List String} (hns : ∀ n ∈ ns, Path.IsName n)
    {l : Location} {n : Node} (h : fs.node? (l ++ ns) = some n) : fs.follow l ns = .ok (l ++ ns) := by
  induction ns generalizing l with
  | nil =>
    rw [List.append_nil] at h ⊢
    exact follow_nil_eq_ok.2 ⟨rfl, by simp [h]⟩
  | cons s ns ih =>
    have hs := hns s (by simp)
    have hl : fs.node? l = some .directory := hw.node?_of_append (List.cons_ne_nil s ns) h
    rw [List.append_cons] at h ⊢
    rw [follow_cons hl]
    simpa [advance, hs.not_filler, enter, hs.2.2.1] using ih (fun n hn => hns n (by simp [hn])) h

/-- What exists below a directory is found by its names. -/
theorem Leads.join {fs : FileSystem} (hw : fs.WellFormed) {dir : Path} (h : fs.Leads dir) {ns : List String}
    (hne : ns ≠ []) (hns : ∀ n ∈ ns, Path.IsName n) {n : Node} (hn : fs.node? (fs.place dir ++ ns) = some n) :
    fs.Leads (dir.join (Text.joinWith "/" ns)) := by
  have hrel := Path.startsAtRoot_joinNames hne hns
  obtain ⟨before, hj, hd⟩ := Path.segments_join hrel dir
  have horigin : fs.origin (dir.join (Text.joinWith "/" ns)) = fs.origin dir := by
    simp only [origin, Path.isAbsolute_join hrel]
  unfold Leads
  rw [hj, horigin, Path.pieces_joinNames hne hns, place_join_names hne hns, follow_append (h.follow_before hd)]
  exact follow_names hw hns hn

theorem join_text_ne_empty {ns : List String} (hne : ns ≠ []) (hns : ∀ n ∈ ns, Path.IsName n) (dir : Path) :
    (dir.join (Text.joinWith "/" ns)).text ≠ "" := by
  rw [Path.join_eq_front (Path.startsAtRoot_joinNames hne hns)]
  intro he
  exact Path.joinNames_ne_empty hne hns (String.append_eq_empty_iff.1 he).2

/-- A file below a directory is found by its names if the path of the directory leads there. -/
theorem isFile_join_iff {fs : FileSystem} (hw : fs.WellFormed) {dir : Path} {ns : List String} (hne : ns ≠ [])
    (hns : ∀ n ∈ ns, Path.IsName n) :
    fs.isFile (dir.join (Text.joinWith "/" ns)) = true ↔
      fs.Leads dir ∧ (fs.fileAt (fs.place dir ++ ns)).isSome := by
  rw [isFile_iff, place_join_names hne hns]
  constructor
  · rintro ⟨hl, hc⟩
    exact ⟨(leads_of_join (Path.startsAtRoot_joinNames hne hns) (leads_of_locate hl)).1, hc⟩
  · rintro ⟨hd, hc⟩
    obtain ⟨c, hc'⟩ := Option.isSome_iff_exists.1 hc
    have hl := (hd.join hw hne hns (fileAt_eq_some_iff.1 hc')).locate (join_text_ne_empty hne hns dir)
    rw [place_join_names hne hns] at hl
    exact ⟨hl, hc⟩

theorem isDirectory_join_iff {fs : FileSystem} (hw : fs.WellFormed) {dir : Path} {ns : List String}
    (hne : ns ≠ []) (hns : ∀ n ∈ ns, Path.IsName n) :
    fs.isDirectory (dir.join (Text.joinWith "/" ns)) = true ↔
      fs.Leads dir ∧ fs.node? (fs.place dir ++ ns) = some .directory := by
  rw [isDirectory_iff, place_join_names hne hns]
  constructor
  · rintro ⟨hl, hc⟩
    exact ⟨(leads_of_join (Path.startsAtRoot_joinNames hne hns) (leads_of_locate hl)).1, hc⟩
  · rintro ⟨hd, hc⟩
    have hl := (hd.join hw hne hns hc).locate (join_text_ne_empty hne hns dir)
    rw [place_join_names hne hns] at hl
    exact ⟨hl, hc⟩

theorem follow_of_directory {fs : FileSystem} (hw : fs.WellFormed) {segments : List String}
    (hup : ".." ∉ segments) {l : Location}
    (h : fs.node? (l ++ segments.filter fun s => !Path.isFiller s) = some .directory) :
    fs.follow l segments = .ok (l ++ segments.filter fun s => !Path.isFiller s) := by
  induction segments generalizing l with
  | nil =>
    rw [List.filter_nil, List.append_nil] at h ⊢
    exact follow_nil_eq_ok.2 ⟨rfl, by simp [h]⟩
  | cons s rest ih =>
    rw [List.mem_cons, not_or] at hup
    have hl : fs.node? l = some .directory := by
      by_cases hnames : (s :: rest).filter (fun s => !Path.isFiller s) = []
      · rwa [hnames, List.append_nil] at h
      · exact hw.node?_of_append hnames h
    rw [follow_cons hl]
    by_cases hs : Path.isFiller s = true
    · simp only [List.filter_cons, hs, Bool.not_true, Bool.false_eq_true, if_false] at h ⊢
      simpa [advance, hs] using ih hup.2 h
    · simp only [List.filter_cons, hs, Bool.not_false, if_true] at h ⊢
      rw [List.append_cons] at h ⊢
      simpa [advance, hs, enter, Ne.symm hup.1] using ih hup.2 h

/-- A path that never goes up leads to its directory. -/
theorem leads_of_directory {fs : FileSystem} (hw : fs.WellFormed) {p : Path} (hup : ".." ∉ p.segments)
    (h : fs.node? (fs.place p) = some .directory) : fs.Leads p := by
  have hplace : fs.place p = fs.origin p ++ p.names := by
    refine foldl_enter_of_isName (fun n hn hd => hup ?_) _
    exact hd ▸ (List.mem_filter.1 hn).1
  unfold Leads
  rw [hplace] at h ⊢
  exact follow_of_directory hw hup h

/-! ## Making and replacing -/

/-- Directories stay, and where there was a file there is one. -/
structure Extends (fs fs' : FileSystem) : Prop where
  here_eq : fs'.here = fs.here
  wellFormed : fs.WellFormed → fs'.WellFormed
  directory : ∀ l, fs.node? l = some .directory → fs'.node? l = some .directory
  file : ∀ l, (fs.fileAt l).isSome → (fs'.fileAt l).isSome

namespace Extends

variable {fs fs' fs'' : FileSystem}

theorem refl (fs : FileSystem) : Extends fs fs := ⟨rfl, id, fun _ => id, fun _ => id⟩

theorem trans (h : Extends fs fs') (h' : Extends fs' fs'') : Extends fs fs'' where
  here_eq := h'.here_eq.trans h.here_eq
  wellFormed hw := h'.wellFormed (h.wellFormed hw)
  directory l hl := h'.directory l (h.directory l hl)
  file l hl := h'.file l (h.file l hl)

theorem node?_isSome (h : Extends fs fs') {l : Location} (hl : (fs.node? l).isSome) : (fs'.node? l).isSome := by
  obtain ⟨n, hn⟩ := Option.isSome_iff_exists.1 hl
  cases n with
  | directory => simp [h.directory l hn]
  | file c =>
    obtain ⟨c', hc'⟩ := Option.isSome_iff_exists.1 (h.file l (by simp [fileAt_eq_some_iff.2 hn]))
    simp [fileAt_eq_some_iff.1 hc']

theorem follow (h : Extends fs fs') {l m : Location} {segments : List String}
    (hf : fs.follow l segments = .ok m) : fs'.follow l segments = .ok m := by
  induction segments generalizing l with
  | nil =>
    obtain ⟨rfl, hs⟩ := follow_nil_eq_ok.1 hf
    exact follow_nil_eq_ok.2 ⟨rfl, h.node?_isSome hs⟩
  | cons s rest ih =>
    obtain ⟨hd, hf⟩ := follow_cons_eq_ok.1 hf
    exact follow_cons_eq_ok.2 ⟨h.directory l hd, ih hf⟩

theorem place_eq (h : Extends fs fs') (p : Path) : fs'.place p = fs.place p := by
  simp only [place, origin, h.here_eq]

theorem leads (h : Extends fs fs') {p : Path} (hp : fs.Leads p) : fs'.Leads p := by
  unfold Leads
  rw [h.place_eq, show fs'.origin p = fs.origin p by simp only [origin, h.here_eq]]
  exact h.follow hp

end Extends

theorem fileAt_put {fs : FileSystem} {l : Location} (hl : l ≠ []) (n : Node) {k : Location} (hk : k ≠ l) :
    (fs.put l n).fileAt k = fs.fileAt k := by
  simp [fileAt, node?_put hl, hk]

theorem fileAt_put_self {fs : FileSystem} {l : Location} (hl : l ≠ []) (c : ByteArray) :
    (fs.put l (.file c)).fileAt l = some c := by
  simp [fileAt, node?_put hl]

/-- A path names an entry: all of it but a last name leads to a directory. -/
structure NamesEntry (fs : FileSystem) (p : Path) (dir : Location) (s : String) : Prop where
  place_eq : fs.place p = dir ++ [s]
  isName : Path.IsName s
  directory : fs.node? dir = some .directory
  entrySegments_eq : p.entrySegments = p.entrySegments.dropLast ++ [s]
  follow : fs.follow (fs.origin p) p.entrySegments.dropLast = .ok dir

theorem NamesEntry.place_ne_nil {fs : FileSystem} {p : Path} {dir : Location} {s : String}
    (h : fs.NamesEntry p dir s) : fs.place p ≠ [] := by
  simp [h.place_eq]

/-- A new entry is made at the place of its path. -/
theorem slot_eq_entry {fs : FileSystem} {p : Path} {l : Location} {slash : Bool}
    (h : fs.slot p = .ok (.entry l slash)) :
    l = fs.place p ∧ slash = p.endsInSlash ∧ ∃ dir s, fs.NamesEntry p dir s := by
  unfold slot at h
  split at h
  · cases h
  · next s hlast =>
    split at h
    · cases h
    · next hne =>
      obtain ⟨dir, hdir, h⟩ := bind_eq_ok.1 h
      split at h
      · next hd =>
        split at h
        · cases h
        · next hdots =>
          obtain ⟨rfl, rfl⟩ := Slot.entry.inj (Except.ok.inj h)
          simp only [Bool.or_eq_true, decide_eq_true_eq, not_or] at hdots
          have hempty : s ≠ "" := by
            rintro rfl
            exact Path.getLast?_entrySegments_ne (by simpa using hne) hlast
          have hsplit : p.entrySegments = p.entrySegments.dropLast ++ [s] := by
            obtain ⟨ss, hss⟩ := List.getLast?_eq_some_iff.1 hlast
            simp [hss]
          have hmem : s ∈ p.segments := by
            have hs : s ∈ p.names := by
              rw [← Path.filter_entrySegments, hsplit]
              simp [Path.isFiller, hempty, hdots.1]
            exact (List.mem_filter.1 hs).1
          have hname : Path.IsName s := ⟨hempty, hdots.1, hdots.2, Text.not_mem_of_mem_pieces hmem⟩
          have hplace : dir ++ [s] = fs.place p := by
            rw [place, ← Path.filter_entrySegments, hsplit, List.filter_append, List.foldl_append,
              ← follow_eq_foldl hdir]
            simp [hname.not_filler, enter, hname.2.2.1]
          exact ⟨hplace, rfl, dir, s, hplace.symm, hname, hd, hsplit, hdir⟩
      · cases h

/-- What making a directory asks and does. -/
theorem put_of_makeDirectory {fs fs' : FileSystem} {p : Path} (h : fs.makeDirectory p = .ok fs') :
    (∃ dir s, fs.NamesEntry p dir s) ∧ fs.node? (fs.place p) = none ∧
      fs' = fs.put (fs.place p) .directory := by
  obtain ⟨slot, hslot, h⟩ := bind_eq_ok.1 h
  cases slot with
  | existing => cases h
  | entry l slash =>
    obtain ⟨rfl, -, hentry⟩ := slot_eq_entry hslot
    dsimp only at h
    split at h
    · cases h
    · next hn => exact ⟨hentry, by simpa using hn, (Except.ok.inj h).symm⟩

/-- What writing a file asks and does. -/
theorem put_of_write {fs fs' : FileSystem} {p : Path} {content : ByteArray} (h : fs.write p content = .ok fs') :
    (∃ dir s, fs.NamesEntry p dir s) ∧ p.endsInSlash = false ∧
      fs.node? (fs.place p) ≠ some .directory ∧ fs' = fs.put (fs.place p) (.file content) := by
  obtain ⟨slot, hslot, h⟩ := bind_eq_ok.1 h
  cases slot with
  | existing => cases h
  | entry l slash =>
    obtain ⟨rfl, rfl, hentry⟩ := slot_eq_entry hslot
    dsimp only at h
    split at h
    · cases h
    · next hends =>
      split at h
      · cases h
      · next hn => exact ⟨hentry, by simpa using hends, hn, (Except.ok.inj h).symm⟩

/-- What removing a file asks and does. -/
theorem drop_of_removeFile {fs fs' : FileSystem} {p : Path} (h : fs.removeFile p = .ok fs') :
    (∃ c, fs.node? (fs.place p) = some (.file c)) ∧ fs' = fs.drop (fs.place p) := by
  obtain ⟨l, hl, h⟩ := bind_eq_ok.1 h
  obtain rfl := locate_eq_place hl
  split at h
  · next c hc => exact ⟨⟨c, hc⟩, (Except.ok.inj h).symm⟩
  · cases h

/-- Nothing but directories is new. -/
structure Grows (fs fs' : FileSystem) : Prop extends Extends fs fs' where
  fileAt_eq : ∀ l, fs'.fileAt l = fs.fileAt l

theorem Grows.refl (fs : FileSystem) : Grows fs fs := ⟨.refl fs, fun _ => rfl⟩

theorem Grows.trans {fs fs' fs'' : FileSystem} (h : Grows fs fs') (h' : Grows fs' fs'') : Grows fs fs'' :=
  ⟨h.toExtends.trans h'.toExtends, fun l => (h'.fileAt_eq l).trans (h.fileAt_eq l)⟩

theorem grows_makeDirectory {fs fs' : FileSystem} {p : Path} (h : fs.makeDirectory p = .ok fs') :
    Grows fs fs' := by
  obtain ⟨⟨dir, s, hentry⟩, hnone, rfl⟩ := put_of_makeDirectory h
  have hl := hentry.place_ne_nil
  have hfile (l : Location) : (fs.put (fs.place p) .directory).fileAt l = fs.fileAt l := by
    by_cases h : l = fs.place p
    · subst h
      simp [fileAt, node?_put hl, hnone]
    · exact fileAt_put hl _ h
  have hdirectory (l : Location) (hd : fs.node? l = some .directory) :
      (fs.put (fs.place p) .directory).node? l = some .directory := by
    rw [node?_put hl]
    split
    · rfl
    · exact hd
  have hwellFormed (hw : fs.WellFormed) : (fs.put (fs.place p) .directory).WellFormed :=
    hentry.place_eq ▸ hw.put hentry.directory hentry.isName (.inl rfl)
  exact ⟨⟨rfl, hwellFormed, hdirectory, fun l hf => by rwa [hfile]⟩, hfile⟩

theorem grows_ensureDirectory {fs fs' : FileSystem} {p : Path} (h : fs.ensureDirectory p = .ok fs') :
    Grows fs fs' := by
  unfold ensureDirectory at h
  split at h
  · next hm => exact Except.ok.inj h ▸ grows_makeDirectory hm
  · split at h
    · exact Except.ok.inj h ▸ .refl fs
    · cases h

theorem grows_makeDirectoryUnder {fs fs' : FileSystem} {makeAbove : Path → Except IoFault FileSystem} {p : Path}
    (habove : ∀ above mid, makeAbove above = .ok mid → Grows fs mid)
    (h : fs.makeDirectoryUnder makeAbove p = .ok fs') : Grows fs fs' := by
  unfold makeDirectoryUnder at h
  split at h
  · exact Except.ok.inj h ▸ .refl fs
  · split at h
    · split at h
      · next above _ =>
        obtain ⟨mid, hmid, h⟩ := bind_eq_ok.1 h
        exact (habove above mid hmid).trans (grows_ensureDirectory h)
      · cases h
    · exact grows_ensureDirectory h

theorem grows_makeDirectoriesFrom (depth : Nat) {fs fs' : FileSystem} {p : Path}
    (h : makeDirectoriesFrom depth fs p = .ok fs') : Grows fs fs' := by
  induction depth generalizing fs' p with
  | zero => exact grows_makeDirectoryUnder (by simp) h
  | succ depth ih => exact grows_makeDirectoryUnder (fun above mid hm => ih hm) h

theorem grows_makeDirectories {fs fs' : FileSystem} {p : Path} (h : fs.makeDirectories p = .ok fs') :
    Grows fs fs' :=
  grows_makeDirectoriesFrom _ h

/-- A file is made or replaced at the place of a path, which leads there now. Other files stay. -/
structure Places (fs fs' : FileSystem) (p : Path) (content : ByteArray) : Prop extends Extends fs fs' where
  fileAt_self : fs'.fileAt (fs.place p) = some content
  fileAt_of_ne : ∀ l, l ≠ fs.place p → fs'.fileAt l = fs.fileAt l
  leads_self : fs'.Leads p

theorem places_write {fs fs' : FileSystem} {p : Path} {content : ByteArray}
    (h : fs.write p content = .ok fs') : Places fs fs' p content := by
  obtain ⟨⟨dir, s, hentry⟩, hends, hnode, rfl⟩ := put_of_write h
  have hl := hentry.place_ne_nil
  have hwellFormed (hw : fs.WellFormed) : (fs.put (fs.place p) (.file content)).WellFormed := by
    rw [hentry.place_eq] at hnode ⊢
    exact hw.put hentry.directory hentry.isName (.inr hnode)
  have hextends : Extends fs (fs.put (fs.place p) (.file content)) := by
    refine ⟨rfl, hwellFormed, ?_, ?_⟩
    · intro l hd
      rw [node?_put hl, if_neg]
      · exact hd
      · rintro rfl
        exact hnode hd
    · intro l hf
      by_cases hk : l = fs.place p
      · simp [hk, fileAt_put_self hl]
      · rwa [fileAt_put hl _ hk]
  refine ⟨hextends, fileAt_put_self hl content, fun k hk => fileAt_put hl _ hk, ?_⟩
  have hsegments : p.segments = p.entrySegments := by
    simp [Path.entrySegments, hends]
  have hs := hentry.isName
  unfold Leads
  rw [hextends.place_eq, hsegments, hentry.entrySegments_eq, hentry.place_eq,
    show (fs.put (dir ++ [s]) (.file content)).origin p = fs.origin p from rfl]
  rw [hentry.place_eq] at hextends
  rw [follow_append (hextends.follow hentry.follow), follow_cons (hextends.directory dir hentry.directory),
    follow_nil_eq_ok]
  exact ⟨by simp [advance, hs.not_filler, enter, hs.2.2.1],
    by simp [advance, hs.not_filler, enter, hs.2.2.1, node?_put (hentry.place_eq ▸ hl)]⟩

theorem read_eq_ok_iff {fs : FileSystem} {p : Path} {content : ByteArray} :
    fs.read p = .ok content ↔ p.text ≠ "" ∧ fs.Leads p ∧ fs.fileAt (fs.place p) = some content := by
  constructor
  · intro h
    obtain ⟨n, hn, h⟩ := bind_eq_ok.1 h
    obtain ⟨hl, hnode⟩ := stat_eq_ok hn
    cases n with
    | directory => cases h
    | file c =>
      obtain rfl := Except.ok.inj h
      refine ⟨?_, leads_of_locate hl, fileAt_eq_some_iff.2 hnode⟩
      intro hempty
      simp [locate, hempty] at hl
  · rintro ⟨hne, hl, hc⟩
    rw [read, stat_of_locate (hl.locate hne) (fileAt_eq_some_iff.1 hc)]
    rfl

theorem readWithin_eq_ok {fs : FileSystem} {limit : Nat} {p : Path} {bytes : ByteArray}
    (h : fs.readWithin limit p = .ok bytes) :
    fs.locate p = .ok (fs.place p) ∧ fs.fileAt (fs.place p) = some bytes ∧ bytes.size ≤ limit := by
  unfold readWithin at h
  split at h
  · cases h
  · cases h
  · next content hs =>
    split at h
    · cases h
    · next hlimit =>
      obtain rfl := Except.ok.inj h
      obtain ⟨hl, hn⟩ := stat_eq_ok hs
      exact ⟨hl, fileAt_eq_some_iff.2 hn, by omega⟩

/-- A copy of a file onto itself is empty. -/
theorem places_copy {fs fs' : FileSystem} {source target : Path} (h : fs.copy source target = .ok fs') :
    ∃ content, Places fs fs' target content ∧
      (if fs.place source = fs.place target then some ByteArray.empty else fs.fileAt (fs.place source)) =
        some content := by
  obtain ⟨n, hn, h⟩ := bind_eq_ok.1 h
  cases n with
  | directory => cases h
  | file c =>
    obtain ⟨mid, hmid, h⟩ := bind_eq_ok.1 h
    obtain ⟨content, hread, h⟩ := bind_eq_ok.1 h
    have h₁ := places_write hmid
    have h₂ := places_write h
    have hsame := h₁.place_eq target
    have hcontent : mid.fileAt (fs.place source) = some content := by
      rw [← h₁.place_eq source]
      exact (read_eq_ok_iff.1 hread).2.2
    refine ⟨content, ⟨h₁.toExtends.trans h₂.toExtends, ?_, ?_, h₂.leads_self⟩, ?_⟩
    · rw [← hsame]
      exact h₂.fileAt_self
    · intro l hl
      rw [h₂.fileAt_of_ne l (hsame ▸ hl), h₁.fileAt_of_ne l hl]
    · rw [← hcontent]
      split
      · next heq => rw [heq, h₁.fileAt_self]
      · next hne => exact (h₁.fileAt_of_ne _ hne).symm

/-! ## Taking away -/

/-- Nothing is new. -/
structure Shrinks (fs fs' : FileSystem) : Prop where
  here_eq : fs'.here = fs.here
  wellFormed : fs.WellFormed → fs'.WellFormed
  node? : ∀ l n, fs'.node? l = some n → fs.node? l = some n

namespace Shrinks

variable {fs fs' fs'' : FileSystem}

theorem refl (fs : FileSystem) : Shrinks fs fs := ⟨rfl, id, fun _ _ => id⟩

theorem trans (h : Shrinks fs fs') (h' : Shrinks fs' fs'') : Shrinks fs fs'' where
  here_eq := h'.here_eq.trans h.here_eq
  wellFormed hw := h'.wellFormed (h.wellFormed hw)
  node? l n hn := h.node? l n (h'.node? l n hn)

theorem follow (h : Shrinks fs fs') {l m : Location} {segments : List String}
    (hf : fs'.follow l segments = .ok m) : fs.follow l segments = .ok m := by
  induction segments generalizing l with
  | nil =>
    obtain ⟨rfl, hs⟩ := follow_nil_eq_ok.1 hf
    obtain ⟨n, hn⟩ := Option.isSome_iff_exists.1 hs
    exact follow_nil_eq_ok.2 ⟨rfl, by simp [h.node? l n hn]⟩
  | cons s rest ih =>
    obtain ⟨hd, hf⟩ := follow_cons_eq_ok.1 hf
    exact follow_cons_eq_ok.2 ⟨h.node? l _ hd, ih hf⟩

theorem place_eq (h : Shrinks fs fs') (p : Path) : fs'.place p = fs.place p := by
  simp only [place, origin, h.here_eq]

/-- What leads somewhere afterwards did so before. -/
theorem leads (h : Shrinks fs fs') {p : Path} (hp : fs'.Leads p) : fs.Leads p := by
  unfold Leads at hp
  rw [h.place_eq, show fs'.origin p = fs.origin p by simp only [origin, h.here_eq]] at hp
  exact h.follow hp

theorem fileAt_eq_none (h : Shrinks fs fs') {l : Location} (hl : fs.fileAt l = none) : fs'.fileAt l = none := by
  cases hc : fs'.fileAt l with
  | none => rfl
  | some c =>
    rw [fileAt_eq_some_iff.2 (h.node? _ _ (fileAt_eq_some_iff.1 hc))] at hl
    cases hl

end Shrinks

theorem shrinks_drop {fs : FileSystem} {l : Location} (h : ∀ s, fs.node? (l ++ [s]) = none) :
    Shrinks fs (fs.drop l) := by
  refine ⟨rfl, fun hw => hw.drop h, ?_⟩
  intro k n hn
  rw [node?_drop] at hn
  split at hn
  · cases hn
  · exact hn

theorem shrinks_drop_empty {fs : FileSystem} {l : Location} (h : fs.isEmptyDirectory l = true) :
    Shrinks fs (fs.drop l) := by
  apply shrinks_drop
  intro s
  cases hn : fs.node? (l ++ [s]) with
  | none => rfl
  | some n =>
    have hmem : (l ++ [s], n) ∈ fs.below l := mem_below_iff.2 ⟨[s], by simp, rfl, hn⟩
    rw [List.isEmpty_iff.1 h] at hmem
    cases hmem

/-- A file has nothing below it. -/
theorem WellFormed.isEmptyDirectory_of_file {fs : FileSystem} (hw : fs.WellFormed) {l : Location} {c : ByteArray}
    (hc : fs.node? l = some (.file c)) : fs.isEmptyDirectory l = true := by
  refine List.isEmpty_iff.2 (List.eq_nil_iff_forall_not_mem.2 ?_)
  rintro ⟨k, n⟩ hk
  obtain ⟨ns, hne, rfl, hn⟩ := mem_below_iff.1 hk
  rw [hw.node?_of_append hne hn] at hc
  cases hc

theorem removeFile_eq_ok {fs fs' : FileSystem} (hw : fs.WellFormed) {p : Path}
    (h : fs.removeFile p = .ok fs') :
    Shrinks fs fs' ∧ fs'.fileAt (fs.place p) = none ∧
      ∀ l, l ≠ fs.place p → fs'.fileAt l = fs.fileAt l := by
  obtain ⟨⟨c, hc⟩, rfl⟩ := drop_of_removeFile h
  have hne : fs.place p ≠ [] := by
    intro he
    simp [he, node?] at hc
  refine ⟨shrinks_drop_empty (hw.isEmptyDirectory_of_file hc), by simp [fileAt, node?_drop, hne], ?_⟩
  intro l hl
  simp [fileAt, node?_drop, hl]

theorem fileAt_drop {fs : FileSystem} {l : Location} (h : fs.fileAt l = none) (k : Location) :
    (fs.drop l).fileAt k = fs.fileAt k := by
  by_cases hk : k = l ∧ k ≠ []
  · obtain ⟨rfl, hne⟩ := hk
    rw [h]
    simp [fileAt, node?_drop, hne]
  · simp [fileAt, node?_drop, hk]

/-- What sweeping does at one directory. -/
def clear (fs : FileSystem) (d : Location) : FileSystem :=
  if !d.isEmpty && fs.isEmptyDirectory d then fs.drop d else fs

/-- The directories at and below a location, a directory after those below it. -/
def upwards (fs : FileSystem) (l : Location) : List Location :=
  (l :: (fs.below l).filterMap fun (k, n) => if n = .directory then some k else none).reverse

theorem sweep_eq_foldl (fs : FileSystem) (l : Location) : fs.sweep l = (fs.upwards l).foldl clear fs := rfl

theorem mem_upwards_iff {fs : FileSystem} {l d : Location} :
    d ∈ fs.upwards l ↔ d = l ∨ ∃ ns, ns ≠ [] ∧ d = l ++ ns ∧ fs.node? d = some .directory := by
  simp only [upwards, List.mem_reverse, List.mem_cons, List.mem_filterMap, Prod.exists, mem_below_iff]
  refine or_congr_right ⟨?_, ?_⟩
  · rintro ⟨k, n, ⟨ns, hne, hk, hn⟩, hkn⟩
    split at hkn
    · next hdir =>
      obtain rfl := Option.some.inj hkn
      exact ⟨ns, hne, hk, hdir ▸ hn⟩
    · cases hkn
  · rintro ⟨ns, hne, hk, hn⟩
    exact ⟨d, .directory, ⟨ns, hne, hk, hn⟩, if_pos rfl⟩

theorem shrinks_clear (fs : FileSystem) (d : Location) : Shrinks fs (fs.clear d) := by
  unfold clear
  split
  · next h => exact shrinks_drop_empty (Bool.and_eq_true_iff.1 h).2
  · exact .refl fs

theorem fileAt_clear {fs : FileSystem} {d : Location} (h : fs.fileAt d = none) (k : Location) :
    (fs.clear d).fileAt k = fs.fileAt k := by
  unfold clear
  split
  · exact fileAt_drop h k
  · rfl

theorem shrinks_foldl_clear {ds : List Location} {fs : FileSystem} : Shrinks fs (ds.foldl clear fs) := by
  induction ds generalizing fs with
  | nil => exact .refl fs
  | cons d ds ih => exact (shrinks_clear fs d).trans ih

theorem fileAt_foldl_clear {ds : List Location} {fs : FileSystem} (hds : ∀ d ∈ ds, fs.fileAt d = none)
    (k : Location) : (ds.foldl clear fs).fileAt k = fs.fileAt k := by
  induction ds generalizing fs with
  | nil => rfl
  | cons d ds ih =>
    obtain ⟨hd, hds⟩ := List.forall_mem_cons.1 hds
    have hsame := fileAt_clear hd
    rw [List.foldl_cons, ih fun x hx => (hsame x).trans (hds x hx), hsame]

/-- Sweeping takes directories away, and no file. -/
theorem shrinks_sweep {fs : FileSystem} {l : Location} (hl : fs.node? l = some .directory) :
    Shrinks fs (fs.sweep l) ∧ ∀ k, (fs.sweep l).fileAt k = fs.fileAt k := by
  rw [sweep_eq_foldl]
  refine ⟨shrinks_foldl_clear, fileAt_foldl_clear fun d hd => ?_⟩
  have hnode : fs.node? d = some .directory := by
    obtain rfl | ⟨-, -, -, hd⟩ := mem_upwards_iff.1 hd
    · exact hl
    · exact hd
  simp [fileAt, hnode]

end StoryPress.FileSystem
