import StoryPress.Proofs.Beside
import StoryPress.Proofs.SinkSteps

/-!
# Steps that change nothing

* `FileSystem.write_self`, `FileSystem.copy_self`: writing what a file holds leaves all files as they are;
* `FileSystem.makeDirectories_self`: and so does making a directory that is there, as the one above a file is;
* `Content.InPlace`: a target holds what is to be put there;
* `Sink.put_idle`, `Sink.changeFor_of_inPlace`: a real run only takes note of it, a dry run finds it unchanged;
* `Export.pruneAll_idle`: where nothing is left over, pruning removes no file.
-/

namespace StoryPress

namespace Path

theorem segments_of_file_text {p dir : Path} {rest : String} (h : p.text = dir.text ++ "/" ++ rest) :
    p.segments = dir.segments ++ Text.pieces '/' rest := by
  rw [segments, h, Text.pieces_append]
  rfl

theorem dropEndFillers_prefix (segments : List String) :
    ∃ fillers, segments = dropEndFillers segments ++ fillers := by
  refine ⟨(segments.reverse.takeWhile isFiller).reverse, ?_⟩
  rw [dropEndFillers, ← List.reverse_append, List.takeWhile_append_dropWhile, List.reverse_reverse]

theorem dropEndFillers_concat (front : List String) {name : String} (hname : isFiller name = false) :
    dropEndFillers (front ++ [name]) = front ++ [name] := by
  simp [dropEndFillers, hname]

section
variable {p dir : Path} {front : List String} {name : String}

theorem parent?_of_body (hbody : p.body = front ++ [name]) (hname : isFiller name = false) :
    p.parent? = some ⟨textOf p.lead (dropEndFillers front)⟩ := by
  rw [parent?, hbody, dropEndFillers_concat front hname]
  split
  · next hnil => simp at hnil
  · rw [List.dropLast_concat]

/-- The segments above a name stand in front of a slash. -/
theorem joinWith_above (hne : dropEndFillers front ≠ []) (name : String) :
    ∃ rest, Text.joinWith "/" (front ++ [name]) = Text.joinWith "/" (dropEndFillers front) ++ "/" ++ rest := by
  obtain ⟨fillers, hfront⟩ := dropEndFillers_prefix front
  refine ⟨Text.joinWith "/" (fillers ++ [name]), ?_⟩
  conv_lhs => rw [hfront, List.append_assoc]
  exact Text.joinWith_append hne (by simp)

theorem head?_segments_of_isAbsolute (h : p.isAbsolute = true) : p.segments.head? = some "" := by
  unfold isAbsolute at h
  cases hcs : p.text.toList with
  | nil => simp [hcs] at h
  | cons c cs =>
    obtain rfl : c = '/' := by simpa [hcs] using h
    simp [segments, Text.pieces, Text.cutAll, hcs]

/-- The path above one that ends in a name stands in front of a slash in its text. -/
theorem text_parent? (hp : p.segments = front ++ [name]) (hname : isFiller name = false)
    (h : p.parent? = some dir) : dir.text = "" ∨ dir.text = "/" ∨ ∃ rest, p.text = dir.text ++ "/" ++ rest := by
  have htext : p.text = Text.joinWith "/" p.segments := (Text.joinWith_pieces p.text).symm
  have above (front' : List String) (hbody : p.body = front' ++ [name]) :
      dir.text = textOf p.lead (dropEndFillers front') := by
    rw [parent?_of_body hbody hname] at h
    rw [← Option.some.inj h]
  -- a leading filler is not the name
  have led {lead : String} (hhead : p.segments.head? = some lead) (hlead : isFiller lead = true) :
      ∃ front', p.segments.tail = front' ++ [name] ∧
        p.text = lead ++ "/" ++ Text.joinWith "/" (front' ++ [name]) := by
    cases front with
    | nil =>
      rw [hp] at hhead
      obtain rfl := Option.some.inj hhead
      rw [hname] at hlead
      cases hlead
    | cons first front' =>
      rw [hp] at hhead
      obtain rfl := Option.some.inj hhead
      exact ⟨front', by rw [hp]; rfl, by rw [htext, hp, List.cons_append, Text.joinWith_cons (by simp)]⟩
  by_cases habs : p.isAbsolute = true
  · obtain ⟨front', htail, htext⟩ := led (head?_segments_of_isAbsolute habs) rfl
    have hlead : p.lead = [.root] := by simp [lead, habs]
    have hdir := above front' (by simp [body, habs, htail])
    rw [hlead] at hdir
    by_cases hnil : dropEndFillers front' = []
    · exact .inr (.inl (by rw [hdir, hnil]; rfl))
    · obtain ⟨rest, hrest⟩ := joinWith_above hnil name
      exact .inr (.inr ⟨rest, by rw [htext, hdir, hrest]; simp [textOf, String.append_assoc]⟩)
  · by_cases hhere : p.startsHere = true
    · obtain ⟨front', htail, htext⟩ := led (by simpa [startsHere] using hhere) rfl
      have hlead : p.lead = [.here] := by simp [lead, habs, hhere]
      have hdir := above front' (by simp [body, hhere, htail])
      rw [hlead] at hdir
      by_cases hnil : dropEndFillers front' = []
      · exact .inr (.inr ⟨_, by rw [htext, hdir, hnil]; rfl⟩)
      · obtain ⟨rest, hrest⟩ := joinWith_above hnil name
        have hdot : "." ++ "/" = "./" := rfl
        refine .inr (.inr ⟨rest, ?_⟩)
        rw [htext, hdir, hrest, hdot]
        simp [textOf, hnil, String.append_assoc]
    · have hlead : p.lead = [] := by simp [lead, habs, hhere]
      have hdir := above front (by simp [body, habs, hhere, hp])
      rw [hlead] at hdir
      by_cases hnil : dropEndFillers front = []
      · exact .inl (by rw [hdir, hnil]; rfl)
      · obtain ⟨rest, hrest⟩ := joinWith_above hnil name
        exact .inr (.inr ⟨rest, by rw [htext, hp, hdir, hrest]; rfl⟩)

end

end Path

namespace FileSystem

variable {fs : FileSystem} {p : Path} {c : ByteArray}

theorem put_self {l : Location} (hl : l ≠ []) {n : Node} (h : fs.node? l = some n) : fs.put l n = fs := by
  have hnodes : fs.nodes.insert l n = fs.nodes := by
    refine OrderedMap.ext_get? fun k => ?_
    rw [OrderedMap.get?_insert]
    split
    · next hk =>
      rw [Std.LawfulEqCmp.eq_of_compare hk, get?_eq_node? hl, h]
    · rfl
  simp [put, hnodes]

theorem put_put (fs : FileSystem) (l : Location) (m n : Node) : (fs.put l m).put l n = fs.put l n := by
  have hnodes : (fs.nodes.insert l m).insert l n = fs.nodes.insert l n := by
    refine OrderedMap.ext_get? fun k => ?_
    simp only [OrderedMap.get?_insert]
    split <;> rfl
  simp [put, hnodes]

/-- The way to a file ends in its name, in a directory. -/
theorem last_of_file (hw : fs.WellFormed) (h : fs.stat p = .ok (.file c)) :
    ∃ front name dir, p.segments = front ++ [name] ∧ Path.isFiller name = false ∧ name ≠ ".." ∧
      fs.follow (fs.origin p) front = .ok dir ∧ fs.node? dir = some .directory ∧
      fs.place p = dir ++ [name] := by
  obtain ⟨-, hl, hc⟩ := stat_eq_file_iff.1 h
  have hne : p.segments ≠ [] := Text.pieces_ne_nil '/' p.text
  obtain ⟨front, name, hp⟩ : ∃ front name, p.segments = front ++ [name] :=
    ⟨_, _, (List.dropLast_concat_getLast hne).symm⟩
  have hfollow : fs.follow (fs.origin p) (front ++ [name]) = .ok (fs.place p) := hp ▸ hl
  obtain ⟨dir, hdir, hnode⟩ := follow_of_append (List.cons_ne_nil name []) hfollow
  rw [follow_append hdir, follow_cons hnode] at hfollow
  obtain ⟨hplace, -⟩ := follow_nil_eq_ok.1 hfollow
  have hfile := fileAt_eq_some_iff.1 hc
  rw [← hplace] at hfile
  have hname : Path.isFiller name = false := by
    apply Bool.eq_false_iff.2
    intro hfiller
    rw [advance, if_pos hfiller, hnode] at hfile
    cases hfile
  have hup : name ≠ ".." := by
    rintro rfl
    have habove : fs.node? dir.dropLast = some .directory := by
      rcases hw.node?_dropLast hnode with rfl | habove
      · exact hnode
      · exact habove
    rw [advance, hname, enter] at hfile
    simp only [Bool.false_eq_true, if_false, if_true, habove] at hfile
    cases hfile
  refine ⟨front, name, dir, hp, hname, hup, hdir, hnode, ?_⟩
  rw [← hplace, advance, hname, enter]
  simp [hup]

/-- A file is replaced in its place. -/
theorem write_file (hw : fs.WellFormed) (h : fs.stat p = .ok (.file c)) (content : ByteArray) :
    fs.write p content = .ok (fs.put (fs.place p) (.file content)) := by
  obtain ⟨front, name, dir, hp, hname, hup, hdir, hnode, hplace⟩ := last_of_file hw h
  have hempty : name ≠ "" ∧ name ≠ "." := by simpa [Path.isFiller] using hname
  have hends : p.endsInSlash = false := by simp [Path.endsInSlash, hp, hempty.1]
  have hentry : p.entrySegments = front ++ [name] := by rw [Path.entrySegments, hends, ← hp]; rfl
  obtain ⟨hne, -, hc⟩ := stat_eq_file_iff.1 h
  have hslot : fs.slot p = .ok (.entry (dir ++ [name]) false) := by
    simp [slot, hentry, hne, hdir, hnode, hempty.2, hup, hends, bind, Except.bind]
  rw [← hplace] at hslot
  simp [write, hslot, fileAt_eq_some_iff.1 hc, bind, Except.bind]

theorem place_ne_nil_of_file (h : fs.stat p = .ok (.file c)) : fs.place p ≠ [] := by
  intro hnil
  have hfile := (stat_eq_ok h).2
  simp [hnil, node?] at hfile

/-- Writing what a file holds changes nothing. -/
theorem write_self (hw : fs.WellFormed) (h : fs.stat p = .ok (.file c)) : fs.write p c = .ok fs := by
  rw [write_file hw h, put_self (place_ne_nil_of_file h) (stat_eq_ok h).2]

/-- Copying a file to one with the same content changes nothing. -/
theorem copy_self (hw : fs.WellFormed) {source : Path} (hs : fs.stat source = .ok (.file c))
    (h : fs.stat p = .ok (.file c)) (hne : fs.place source ≠ fs.place p) : fs.copy source p = .ok fs := by
  have hempty := write_file hw h ByteArray.empty
  have hplaces := places_write hempty
  obtain ⟨htext, -, -⟩ := stat_eq_file_iff.1 h
  obtain ⟨hstext, hsleads, hsfile⟩ := stat_eq_file_iff.1 hs
  -- the file is emptied first, and the source is read after that
  have hread : (fs.put (fs.place p) (.file ByteArray.empty)).stat source = .ok (.file c) := by
    refine stat_eq_file_iff.2 ⟨hstext, hplaces.leads hsleads, ?_⟩
    rw [hplaces.place_eq, hplaces.fileAt_of_ne _ hne, hsfile]
  have hemptied : (fs.put (fs.place p) (.file ByteArray.empty)).stat p = .ok (.file ByteArray.empty) := by
    refine stat_eq_file_iff.2 ⟨htext, hplaces.leads_self, ?_⟩
    rw [hplaces.place_eq, hplaces.fileAt_self]
  have hfilled := write_file (hplaces.wellFormed hw) hemptied c
  rw [hplaces.place_eq, put_put, put_self (place_ne_nil_of_file h) (stat_eq_ok h).2] at hfilled
  simp [copy, hs, hempty, read, hread, hfilled, bind, Except.bind]

/-! ## Directories that are there -/

/-- The segments that name an entry begin those of its path. -/
theorem entrySegments_append (p : Path) : ∃ ending, p.segments = p.entrySegments ++ ending := by
  unfold Path.entrySegments
  split
  · refine ⟨(p.segments.reverse.takeWhile (· == "")).reverse, ?_⟩
    rw [← List.reverse_append, List.takeWhile_append_dropWhile, List.reverse_reverse]
  · exact ⟨[], by simp⟩

/-- A path that leads somewhere has a place for an entry. -/
theorem Leads.slot (h : fs.Leads p) (hne : p.text ≠ "") : ∃ s, fs.slot p = .ok s := by
  unfold FileSystem.slot
  cases hlast : p.entrySegments.getLast? with
  | none => exact ⟨_, rfl⟩
  | some last =>
    obtain ⟨ending, hending⟩ := entrySegments_append p
    obtain ⟨front, hfront⟩ := List.getLast?_eq_some_iff.1 hlast
    have hfollow : fs.follow (fs.origin p) (front ++ (last :: ending)) = .ok (fs.place p) := by
      have hl : fs.follow (fs.origin p) p.segments = .ok (fs.place p) := h
      rw [hending, hfront] at hl
      simpa using hl
    obtain ⟨dir, hdir, hnode⟩ := follow_of_append (List.cons_ne_nil last ending) hfollow
    simp only [hfront, List.dropLast_concat, String.isEmpty_iff, hne, if_false, hdir, hnode, bind, Except.bind]
    split
    · exact ⟨_, rfl⟩
    · exact ⟨_, rfl⟩

theorem makeDirectory_self (h : fs.isDirectory p = true) : fs.makeDirectory p = .error .alreadyExists := by
  obtain ⟨hne, hl, hnode⟩ := isDirectory_iff_leads.1 h
  obtain ⟨s, hs⟩ := hl.slot hne
  cases s with
  | existing => simp [makeDirectory, hs, bind, Except.bind]
  | entry l slash =>
    obtain ⟨rfl, -⟩ := slot_eq_entry hs
    simp [makeDirectory, hs, hnode, bind, Except.bind]

/-- Making a directory that is there changes nothing; nor does the empty path. -/
theorem makeDirectories_self (h : p.text = "" ∨ fs.isDirectory p = true) : fs.makeDirectories p = .ok fs := by
  have under (makeAbove : Path → Except IoFault FileSystem) : fs.makeDirectoryUnder makeAbove p = .ok fs := by
    unfold makeDirectoryUnder
    split
    · rfl
    · next hne =>
      have hdir := h.resolve_left (by simpa using hne)
      simp [makeDirectory_self hdir, ensureDirectory, hdir]
  unfold makeDirectories
  cases p.text.length with
  | zero => exact under _
  | succ depth => exact under _

/-- The directory above a file is there. -/
theorem isDirectory_parent? (hw : fs.WellFormed) (h : fs.stat p = .ok (.file c)) {dir : Path}
    (hdir : p.parent? = some dir) : dir.text = "" ∨ fs.isDirectory dir = true := by
  obtain ⟨front, name, -, hp, hname, -⟩ := last_of_file hw h
  obtain hempty | hroot | ⟨rest, htext⟩ := Path.text_parent? hp hname hdir
  · exact .inl hempty
  · right
    obtain rfl : dir = ⟨"/"⟩ := by
      cases dir
      exact congrArg Path.mk hroot
    rfl
  · by_cases hempty : dir.text = ""
    · exact .inl hempty
    right
    have habs : p.isAbsolute = dir.isAbsolute := by
      obtain ⟨d, ds, hd⟩ := List.exists_cons_of_ne_nil fun hnil => hempty (String.toList_eq_nil_iff.1 hnil)
      simp [Path.isAbsolute, htext, hd]
    have horigin : fs.origin p = fs.origin dir := by simp only [origin, habs]
    have hfollow : fs.follow (fs.origin dir) (dir.segments ++ Text.pieces '/' rest) = .ok (fs.place p) := by
      rw [← horigin, ← Path.segments_of_file_text htext]
      exact (stat_eq_file_iff.1 h).2.1
    obtain ⟨k, hk, hnode⟩ := follow_of_append (Text.pieces_ne_nil _ _) hfollow
    obtain rfl : k = fs.place dir := follow_eq_foldl hk
    exact isDirectory_iff_leads.2 ⟨hempty, hk, hnode⟩

end FileSystem

/-! ## Artifacts in place -/

/-- A target holds what content comes to; a file that is copied there is another one. -/
structure Content.InPlace (fs : FileSystem) (target : Path) (content : Content) (bytes : ByteArray) : Prop where
  held : fs.stat target = .ok (.file bytes)
  same : content.bytesIn fs = some bytes
  apart : ∀ source, content = .copyOf source → fs.isFile source = true ∧ fs.place source ≠ fs.place target

/-- How much of a target a dry run reads. -/
def Content.limit : Content → Nat
  | text _ => maxDocumentBytes
  | bytes _ | copyOf _ => maxAssetBytes

namespace Sink

variable {fs : FileSystem} {s : Sink} {path : String} {target : Path} {content : Content} {bytes : ByteArray}

theorem changing_idle {f : FileSystem → Except IoFault FileSystem} (h : f fs = .ok fs) (p : Path) :
    Runs (changing p f) ⟨fs, s⟩ () ⟨fs, s⟩ :=
  Runs.changing_iff.2 ⟨fs, h, rfl⟩

/-- Storing what is there changes nothing. -/
theorem store_idle (hw : fs.WellFormed) (h : content.InPlace fs target bytes) :
    Runs (store target content) ⟨fs, s⟩ () ⟨fs, s⟩ := by
  obtain ⟨hheld, hsame, hcopy⟩ := h
  cases content with
  | text t =>
    obtain rfl := Option.some.inj hsame
    exact changing_idle (f := (·.write target t.toUTF8)) (FileSystem.write_self hw hheld) target
  | bytes b =>
    obtain rfl := Option.some.inj hsame
    exact changing_idle (f := (·.write target b)) (FileSystem.write_self hw hheld) target
  | copyOf source =>
    obtain ⟨hfile, hne⟩ := hcopy source rfl
    obtain ⟨c, hc⟩ := FileSystem.isFile_iff_stat.1 hfile
    obtain rfl : c = bytes := by
      have hat := (FileSystem.stat_eq_file_iff.1 hc).2.2
      exact Option.some.inj (hat.symm.trans hsame)
    exact changing_idle (f := (·.copy source target)) (FileSystem.copy_self hw hc hheld hne) target

/-- A real run that puts what is there only takes note of it. -/
theorem put_idle (hw : fs.WellFormed) (hreal : s.dryRun = false)
    (h : content.InPlace fs (s.root.join path) bytes) :
    Runs (put path content) ⟨fs, s⟩ (s.root.join path) ⟨fs, { s with
      produced := path :: s.produced
      written := s.written ++ [s.root.join path] }⟩ := by
  refine Runs.bind_iff.2 ⟨_, _, Runs.get_iff.2 ⟨rfl, rfl⟩, ?_⟩
  refine Runs.bind_iff.2 ⟨(), _, Runs.updating_iff.2 rfl, ?_⟩
  dsimp only
  rw [if_neg (by simp [hreal])]
  have hrest : Runs (do
      store (s.root.join path) content
      updating fun s' => { s' with written := s'.written ++ [s.root.join path] }
      return s.root.join path) ⟨fs, { s with produced := path :: s.produced }⟩ (s.root.join path)
      ⟨fs, { s with produced := path :: s.produced, written := s.written ++ [s.root.join path] }⟩ := by
    refine Runs.bind_iff.2 ⟨(), _, store_idle hw h, ?_⟩
    exact Runs.bind_iff.2 ⟨(), _, Runs.updating_iff.2 rfl, Runs.pure_iff.2 ⟨rfl, rfl⟩⟩
  cases hdir : (s.root.join path).parent? with
  | none => exact hrest
  | some dir =>
    refine Runs.bind_iff.2 ⟨(), _, changing_idle ?_ dir, hrest⟩
    exact FileSystem.makeDirectories_self (FileSystem.isDirectory_parent? hw h.held hdir)

/-- A dry run records the change that putting would make. -/
theorem put_dry {change : Change} (hdry : s.dryRun = true)
    (h : changeFor fs path (s.root.join path) content = .ok change) :
    Runs (put path content) ⟨fs, s⟩ (s.root.join path) ⟨fs, { s with
      produced := path :: s.produced
      changes := s.changes ++ [change] }⟩ := by
  refine Runs.bind_iff.2 ⟨_, _, Runs.get_iff.2 ⟨rfl, rfl⟩, ?_⟩
  refine Runs.bind_iff.2 ⟨(), _, Runs.updating_iff.2 rfl, ?_⟩
  dsimp only
  rw [if_pos (by simp [hdry])]
  refine Runs.bind_iff.2 ⟨change, _, Runs.reading_iff.2 ⟨h, rfl⟩, ?_⟩
  exact Runs.bind_iff.2 ⟨(), _, Runs.updating_iff.2 rfl, Runs.pure_iff.2 ⟨rfl, rfl⟩⟩

/-- What is in place is unchanged. -/
theorem changeFor_of_inPlace (h : content.InPlace fs target bytes) (hsize : bytes.size ≤ content.limit) :
    changeFor fs path target content = .ok ⟨path, .unchanged, none⟩ := by
  obtain ⟨hheld, hsame, hcopy⟩ := h
  have hfile : fs.isFile target = true := FileSystem.isFile_iff_stat.2 ⟨_, hheld⟩
  have hread := FileSystem.readWithin_of_stat hheld hsize
  cases content with
  | text t =>
    obtain rfl := Option.some.inj hsame
    have hread : fs.readWithin maxDocumentBytes target = .ok t.toUTF8 := hread
    simp [changeFor, Change.ofText, hfile, hread, bind, Except.bind, pure, Except.pure]
  | bytes b =>
    obtain rfl := Option.some.inj hsame
    have hread : fs.readWithin maxAssetBytes target = .ok b := hread
    simp [changeFor, Change.ofHash, hfile, hread, bind, Except.bind, pure, Except.pure]
  | copyOf source =>
    obtain ⟨hsource, -⟩ := hcopy source rfl
    obtain ⟨c, hc⟩ := FileSystem.isFile_iff_stat.1 hsource
    obtain rfl : c = bytes := by
      have hat := (FileSystem.stat_eq_file_iff.1 hc).2.2
      exact Option.some.inj (hat.symm.trans hsame)
    have hread : fs.readWithin maxAssetBytes target = .ok c := hread
    have hread' : fs.readWithin maxAssetBytes source = .ok c := FileSystem.readWithin_of_stat hc hsize
    simp [changeFor, Change.ofHash, hfile, hread, hread', bind, Except.bind, pure, Except.pure]

/-- What is not found is new. -/
theorem changeFor_of_not_isFile (hno : fs.isFile target = false)
    (hcopy : ∀ source, content = .copyOf source → ∃ c, fs.readWithin maxAssetBytes source = .ok c) :
    ∃ change, changeFor fs path target content = .ok change ∧ change.path = path ∧ change.status = .new := by
  cases content with
  | text t => exact ⟨⟨path, .new, none⟩, by simp [changeFor, Change.ofText, hno], rfl, rfl⟩
  | bytes b =>
    refine ⟨⟨path, .new, some (.hashes none (Hash.sha256Hex b))⟩, ?_, rfl, rfl⟩
    simp [changeFor, Change.ofHash, hno]
  | copyOf source =>
    obtain ⟨c, hc⟩ := hcopy source rfl
    refine ⟨⟨path, .new, some (.hashes none (Hash.sha256Hex c))⟩, ?_, rfl, rfl⟩
    simp [changeFor, Change.ofHash, hno, hc, bind, Except.bind]

/-! ## Directories without leftovers -/

/-- All files below some names were produced. -/
def NothingStale (fs : FileSystem) (s : Sink) (ms : List String) : Prop :=
  ∀ ns, ns ≠ [] → (fs.fileAt (fs.place s.root ++ (ms ++ ns))).isSome → walkedName (ms ++ ns) ∈ s.produced

section
variable {ms : List String} (hne : ms ≠ []) (hms : ∀ m ∈ ms, Path.IsName m) (hw : fs.WellFormed)
include hne hms hw

theorem stale_eq_nil (hd : fs.isDirectory (s.root.join (Text.joinWith "/" ms)) = true)
    (h : NothingStale fs s ms) : stale fs s (s.root.join (Text.joinWith "/" ms)) = [] := by
  refine List.eq_nil_iff_forall_not_mem.2 ?_
  rintro ⟨rel, p⟩ hmem
  obtain ⟨ns, hns, hfile, hnew, -⟩ := (mem_stale_iff hne hms hw hd).1 hmem
  exact hnew (h ns hns hfile)

/-- Pruning a directory without leftovers removes no file. -/
theorem prune_idle (hreal : s.dryRun = false) (h : NothingStale fs s ms) :
    ∃ count fs', Runs (prune (Text.joinWith "/" ms)) ⟨fs, s⟩ count ⟨fs', s⟩ ∧ fs.Shrinks fs' ∧
      ∀ l, fs'.fileAt l = fs.fileAt l := by
  by_cases hd : fs.isDirectory (s.root.join (Text.joinWith "/" ms)) = true
  · obtain ⟨hl, hnode⟩ := FileSystem.isDirectory_iff.1 hd
    obtain ⟨hshrinks, hsame⟩ := FileSystem.shrinks_sweep hnode
    refine ⟨0, _, Runs.bind_iff.2 ⟨_, _, Runs.get_iff.2 ⟨rfl, rfl⟩, ?_⟩, hshrinks, hsame⟩
    dsimp only
    rw [if_neg (by simp [hd]), if_neg (by simp [hreal]), stale_eq_nil hne hms hw hd h]
    refine Runs.bind_iff.2 ⟨(), _, Runs.pure_iff.2 ⟨rfl, rfl⟩, ?_⟩
    refine Runs.bind_iff.2 ⟨(), _, Runs.changing_iff.2 ⟨_, ?_, rfl⟩, Runs.pure_iff.2 ⟨rfl, rfl⟩⟩
    exact bind_eq_ok.2 ⟨_, hl, rfl⟩
  · refine ⟨0, fs, Runs.bind_iff.2 ⟨_, _, Runs.get_iff.2 ⟨rfl, rfl⟩, ?_⟩, .refl fs, fun _ => rfl⟩
    dsimp only
    rw [if_pos (by simpa using hd)]
    exact Runs.pure_iff.2 ⟨rfl, rfl⟩

theorem removals_eq_nil (h : fs.Leads s.root → NothingStale fs s ms) :
    removals fs s (Text.joinWith "/" ms) = [] := by
  unfold removals
  split
  · next hd =>
    rw [stale_eq_nil hne hms hw hd (h ((FileSystem.isDirectory_join_iff hw hne hms).1 hd).1)]
    rfl
  · rfl

end

/-- A dry run records what pruning would remove. -/
theorem prune_dry_run (hdry : s.dryRun = true) (dir : String) :
    ∃ count, Runs (prune dir) ⟨fs, s⟩ count ⟨fs, { s with changes := s.changes ++ removals fs s dir }⟩ := by
  by_cases hd : fs.isDirectory (s.root.join dir) = true
  · refine ⟨(stale fs s (s.root.join dir)).length, Runs.bind_iff.2 ⟨_, _, Runs.get_iff.2 ⟨rfl, rfl⟩, ?_⟩⟩
    dsimp only
    rw [if_neg (by simp [hd]), if_pos (by simp [hdry])]
    refine Runs.bind_iff.2 ⟨(), _, Runs.updating_iff.2 ?_, Runs.pure_iff.2 ⟨rfl, rfl⟩⟩
    simp [removals, hd]
  · refine ⟨0, Runs.bind_iff.2 ⟨_, _, Runs.get_iff.2 ⟨rfl, rfl⟩, ?_⟩⟩
    dsimp only
    rw [if_pos (by simpa using hd)]
    refine Runs.pure_iff.2 ⟨rfl, ?_⟩
    simp [removals, hd]

end Sink

namespace Export

open Sink (NothingStale)

variable {fs : FileSystem} {s : Sink}

/-- Pruning directories without leftovers removes no file. -/
theorem pruneAll_idle {mss : List (List String)} (hmss : ∀ ms ∈ mss, ms ≠ [] ∧ ∀ m ∈ ms, Path.IsName m)
    (hw : fs.WellFormed) (hreal : s.dryRun = false) (h : ∀ ms ∈ mss, NothingStale fs s ms) :
    ∃ fs', Runs (pruneAll (mss.map (Text.joinWith "/"))) ⟨fs, s⟩ () ⟨fs', s⟩ ∧ fs.Shrinks fs' ∧
      ∀ l, fs'.fileAt l = fs.fileAt l := by
  induction mss generalizing fs with
  | nil => exact ⟨fs, Runs.pure_iff.2 ⟨rfl, rfl⟩, .refl fs, fun _ => rfl⟩
  | cons ms mss ih =>
    obtain ⟨hne, hms⟩ := hmss ms (by simp)
    obtain ⟨count, mid, hrun, hshrinks, hsame⟩ := Sink.prune_idle hne hms hw hreal (h ms (by simp))
    have hrest : ∀ ns ∈ mss, NothingStale mid s ns := by
      intro ns hns ks hks hfile
      rw [hshrinks.place_eq, hsame] at hfile
      exact h ns (by simp [hns]) ks hks hfile
    obtain ⟨fs', hruns, hshrinks', hsame'⟩ :=
      ih (fun ns hns => hmss ns (by simp [hns])) (hshrinks.wellFormed hw) hrest
    exact ⟨fs', Runs.bind_iff.2 ⟨count, _, hrun, hruns⟩, hshrinks.trans hshrinks', fun l => by
      rw [hsame', hsame]⟩

/-- A dry run that has nothing to remove records nothing. -/
theorem pruneAll_dry_idle {dirs : List String} (hdry : s.dryRun = true)
    (h : ∀ dir ∈ dirs, Sink.removals fs s dir = []) : Runs (pruneAll dirs) ⟨fs, s⟩ () ⟨fs, s⟩ := by
  induction dirs with
  | nil => exact Runs.pure_iff.2 ⟨rfl, rfl⟩
  | cons dir dirs ih =>
    obtain ⟨count, hrun⟩ := @Sink.prune_dry_run fs s hdry dir
    rw [h dir (by simp), List.append_nil] at hrun
    exact Runs.bind_iff.2 ⟨count, _, hrun, ih fun d hd => h d (by simp [hd])⟩

end Export

end StoryPress
