import StoryPress.Proofs.Delivered

/-!
# What a dry run reports

* `verdict`: what a dry run says of an artifact;
* `Leftover`: a file that pruning would remove;
* `reported_iff`: a dry run reports its verdicts on the artifacts, and leftovers if the path of the output leads
  to its directory;
* `nodup_reported`: no place is reported twice.
-/

namespace StoryPress

/-- Contents are alike to a dry run: a text by its bytes, a copy by its digest. -/
def Content.Alike : Content → ByteArray → ByteArray → Prop
  | .text _, old, new => old = new
  | .bytes _, old, new | .copyOf _, old, new => Hash.sha256Hex old = Hash.sha256Hex new

instance (c : Content) (old new : ByteArray) : Decidable (c.Alike old new) :=
  match c with
  | .text _ => inferInstanceAs (Decidable (old = new))
  | .bytes _ | .copyOf _ => inferInstanceAs (Decidable (Hash.sha256Hex old = Hash.sha256Hex new))

/-- What a dry run says of content for a place that holds `old` and is to hold `new`. -/
def Content.verdict (c : Content) (found : Bool) : Option ByteArray → Option ByteArray → ChangeStatus
  | some old, some new => if !found then .new else if c.Alike old new then .unchanged else .modified
  | _, _ => .new

/-- What a dry run says of an artifact. -/
def verdict (fs : FileSystem) (root : Path) (a : Preparation.Artifact) : ChangeStatus :=
  a.2.verdict (fs.isFile (root.join a.1)) (fs.fileAt (fs.place (root.join a.1))) (a.2.bytesIn fs)

section
variable {fs : FileSystem} {root : Path} {a : Preparation.Artifact}

theorem verdict_ne_removed : verdict fs root a ≠ .removed := by
  unfold verdict Content.verdict
  split
  · split
    · exact ChangeStatus.noConfusion
    · split <;> exact ChangeStatus.noConfusion
  · exact ChangeStatus.noConfusion

/-- What a dry run says of an artifact that has no file yet. -/
theorem verdict_of_absent (h : fs.fileAt (fs.place (root.join a.1)) = none) : verdict fs root a = .new := by
  unfold verdict
  rw [h]
  rfl

/-- What a dry run says of an artifact that it does not find. -/
theorem verdict_of_not_isFile (h : fs.isFile (root.join a.1) ≠ true) : verdict fs root a = .new := by
  unfold verdict Content.verdict
  split
  · exact if_pos (by simpa using h)
  · rfl

/-- What a dry run says of an artifact that it finds. -/
theorem verdict_of_isFile (h : fs.isFile (root.join a.1) = true) {old new : ByteArray}
    (hold : fs.fileAt (fs.place (root.join a.1)) = some old) (hnew : a.2.bytesIn fs = some new) :
    verdict fs root a = if a.2.Alike old new then .unchanged else .modified := by
  unfold verdict
  rw [h, hold, hnew]
  rfl

end

section
variable {fs : FileSystem} {root : Path} {a : Preparation.Artifact} {c : Change}

theorem verdict_of_ofHash {new : ByteArray} (hnew : a.2.bytesIn fs = some new)
    (halike : ∀ old, a.2.Alike old new ↔ Hash.sha256Hex old = Hash.sha256Hex new)
    (h : Change.ofHash fs a.1 (root.join a.1) (Hash.sha256Hex new) = .ok c) :
    c.path = a.1 ∧ c.status = verdict fs root a := by
  unfold Change.ofHash at h
  split at h
  · next hno =>
    obtain rfl := Except.ok.inj h
    exact ⟨rfl, (verdict_of_not_isFile (by simpa using hno)).symm⟩
  · next hfile =>
    obtain ⟨old, hr, h⟩ := bind_eq_ok.1 h
    rw [verdict_of_isFile (by simpa using hfile) (FileSystem.readWithin_eq_ok hr).2.1 hnew]
    dsimp only at h
    split at h
    · next heq =>
      obtain rfl := pure_eq_ok.1 h
      exact ⟨rfl, by rw [if_pos ((halike old).2 heq)]⟩
    · next hne =>
      obtain rfl := pure_eq_ok.1 h
      exact ⟨rfl, by rw [if_neg fun ha => hne ((halike old).1 ha)]⟩

theorem verdict_of_ofText {path text : String} (h : Change.ofText fs path (root.join path) text = .ok c) :
    c.path = path ∧ c.status = verdict fs root (path, .text text) := by
  unfold Change.ofText at h
  split at h
  · next hno =>
    obtain rfl := Except.ok.inj h
    exact ⟨rfl, (verdict_of_not_isFile (by simpa using hno)).symm⟩
  · next hfile =>
    obtain ⟨old, hr, h⟩ := bind_eq_ok.1 h
    rw [verdict_of_isFile (a := (path, .text text)) (by simpa using hfile)
      (FileSystem.readWithin_eq_ok hr).2.1 rfl]
    split at h
    · next heq =>
      obtain rfl := pure_eq_ok.1 h
      exact ⟨rfl, (if_pos heq).symm⟩
    · next hne =>
      obtain rfl := pure_eq_ok.1 h
      exact ⟨rfl, (if_neg hne).symm⟩

/-- A dry run records its verdict on an artifact. -/
theorem verdict_of_changeFor (h : Sink.changeFor fs a.1 (root.join a.1) a.2 = .ok c) :
    c.path = a.1 ∧ c.status = verdict fs root a := by
  obtain ⟨path, content⟩ := a
  cases content with
  | text s => exact verdict_of_ofText h
  | bytes b => exact verdict_of_ofHash rfl (fun _ => Iff.rfl) h
  | copyOf source =>
    obtain ⟨new, hr, h⟩ := bind_eq_ok.1 h
    exact verdict_of_ofHash (FileSystem.readWithin_eq_ok hr).2.1 (fun _ => Iff.rfl) h

end

namespace Preparation

open Layout

variable {fs fs' : FileSystem} {options : ExportOptions} {p : Preparation} {now : Timestamp} {a : Artifact}

/-- A file that pruning would remove: it lies below a directory that is pruned, and a walk meets it under a path
that the export does not produce. -/
def Leftover (fs : FileSystem) (options : ExportOptions) (p : Preparation) (l : Location) : Prop :=
  ∃ ms ∈ generatedNames, ∃ ns, ns ≠ [] ∧ l = fs.place options.output ++ (ms ++ ns) ∧ (fs.fileAt l).isSome ∧
    Sink.walkedName (ms ++ ns) ∉ p.paths

theorem Leftover.isSome {l : Location} (h : Leftover fs options p l) : (fs.fileAt l).isSome := by
  obtain ⟨ms, -, ns, -, -, hfile, -⟩ := h
  exact hfile

/-- No file in the output directory has a backslash in its names. -/
def PlainBelow (fs : FileSystem) (options : ExportOptions) : Prop :=
  ∀ ns, (fs.fileAt (fs.place options.output ++ ns)).isSome → ∀ n ∈ ns, '\\' ∉ n.toList

theorem plainBelow_of_entries (h : ∀ e ∈ fs.nodes.entries, ∀ n ∈ e.1, '\\' ∉ n.toList) : PlainBelow fs options := by
  intro ns hfile n hn
  obtain ⟨c, hc⟩ := Option.isSome_iff_exists.1 hfile
  have hne := List.append_ne_nil_of_right_ne_nil (fs.place options.output) (List.ne_nil_of_mem hn)
  have hmem := FileSystem.mem_entries_of_node? hne (FileSystem.fileAt_eq_some_iff.1 hc)
  exact h _ hmem n (List.mem_append_right _ hn)

/-- A place is reported with a status. -/
def Reported (fs : FileSystem) (root : Path) (changes : List Change) (s : ChangeStatus) (l : Location) : Prop :=
  ∃ c ∈ changes, c.status = s ∧ fs.place (root.join c.path) = l

section
variable (hw : fs.WellFormed) (hplain : PlainBelow fs options)
include hw hplain

/-- A walk knows a file in the output directory by its names. -/
theorem place_walkedName {ns : List String} (hfile : (fs.fileAt (fs.place options.output ++ ns)).isSome) :
    fs.place (options.output.join (Sink.walkedName ns)) = fs.place options.output ++ ns := by
  obtain ⟨c, hc⟩ := Option.isSome_iff_exists.1 hfile
  have hnames : ∀ n ∈ ns, Path.IsName n := fun n hn =>
    hw.isName (FileSystem.fileAt_eq_some_iff.1 hc) n (by simp [hn])
  by_cases hne : ns = []
  · rw [hne]
    exact place_inBundle ⟨by decide, by decide⟩ fs options.output
  · rw [walkedName_of_plain (hplain ns hfile), FileSystem.place_join_names hne hnames]

/-- A file that a walk knows by a path of the export is where the export puts something. -/
theorem exists_artifact_at {ns : List String} (hfile : (fs.fileAt (fs.place options.output ++ ns)).isSome)
    (hr : Sink.walkedName ns ∈ p.paths) (text : String → ExportManifest → String) :
    ∃ a ∈ p.files text, fs.place (options.output.join a.1) = fs.place options.output ++ ns := by
  rw [← paths_files text] at hr
  obtain ⟨a, ha, hpath⟩ := List.mem_map.1 hr
  exact ⟨a, ha, hpath ▸ place_walkedName hw hplain hfile⟩

/-- The removals of a dry run are the leftovers, if the path of the output leads to its directory. -/
theorem mem_removals_iff {s : Sink} (hroot : s.root = options.output) (hproduced : s.produced = p.paths.reverse)
    {l : Location} :
    (∃ c ∈ generated.flatMap (Sink.removals fs s), fs.place (options.output.join c.path) = l) ↔
      fs.Leads options.output ∧ Leftover fs options p l := by
  constructor
  · rintro ⟨c, hc, rfl⟩
    obtain ⟨dir, hdir, hc⟩ := List.mem_flatMap.1 hc
    rw [generated_eq] at hdir
    obtain ⟨ms, hms, rfl⟩ := List.mem_map.1 hdir
    obtain ⟨hne, hnames⟩ := isName_generatedNames ms hms
    unfold Sink.removals at hc
    split at hc
    · next hd =>
      obtain ⟨⟨rel, q⟩, hmem, rfl⟩ := List.mem_map.1 hc
      obtain ⟨ns, hns, hfile, hnew, rfl, -⟩ := (Sink.mem_stale_iff hne hnames hw hd).1 hmem
      rw [hroot] at hd hfile
      rw [hproduced, List.mem_reverse] at hnew
      have hplace := place_walkedName hw hplain hfile
      dsimp only
      rw [hplace]
      exact ⟨((FileSystem.isDirectory_join_iff hw hne hnames).1 hd).1, ms, hms, ns, hns, rfl, hfile, hnew⟩
    · cases hc
  · rintro ⟨hleads, ms, hms, ns, hns, rfl, hfile, hnew⟩
    obtain ⟨hne, hnames⟩ := isName_generatedNames ms hms
    obtain ⟨c, hc⟩ := Option.isSome_iff_exists.1 hfile
    have hdir : fs.isDirectory (s.root.join (Text.joinWith "/" ms)) = true := by
      rw [← List.append_assoc] at hc
      rw [hroot]
      exact (FileSystem.isDirectory_join_iff hw hne hnames).2
        ⟨hleads, hw.node?_of_append hns (FileSystem.fileAt_eq_some_iff.1 hc)⟩
    have hmem : (Sink.walkedName (ms ++ ns), s.root.join (Text.joinWith "/" (ms ++ ns))) ∈
        Sink.stale fs s (s.root.join (Text.joinWith "/" ms)) := by
      refine (Sink.mem_stale_iff hne hnames hw hdir).2 ⟨ns, hns, ?_, ?_, rfl, rfl⟩
      · rwa [hroot]
      · rwa [hproduced, List.mem_reverse]
    refine ⟨⟨Sink.walkedName (ms ++ ns), .removed, none⟩, List.mem_flatMap.2 ⟨Text.joinWith "/" ms, ?_, ?_⟩, ?_⟩
    · rw [generated_eq]
      exact List.mem_map_of_mem hms
    · simp only [Sink.removals, hdir, if_true]
      exact List.mem_map.2 ⟨_, hmem, rfl⟩
    · exact place_walkedName hw hplain hfile

/-- The files of a walk that are not among some paths, by their places. -/
theorem places_filterMap (produced : List String) {ms : List String} (files : List (List String × ByteArray))
    (hfiles : ∀ e ∈ files, (fs.fileAt (fs.place options.output ++ (ms ++ e.1))).isSome) :
    ((files.filterMap fun (ns, _) =>
        if produced.contains (Sink.walkedName (ms ++ ns)) then none
        else some (Sink.walkedName (ms ++ ns), options.output.join (Text.joinWith "/" (ms ++ ns)))).map
      fun (rel, _) => fs.place (options.output.join rel)) =
      ((files.map (·.1)).filter fun ns => !produced.contains (Sink.walkedName (ms ++ ns))).map
        fun ns => fs.place options.output ++ (ms ++ ns) := by
  induction files with
  | nil => rfl
  | cons e files ih =>
    have hrest := ih fun e' he' => hfiles e' (by simp [he'])
    have hplace := place_walkedName hw hplain (hfiles e (by simp))
    by_cases hc : produced.contains (Sink.walkedName (ms ++ e.1)) = true
    · simp only [List.filterMap_cons, List.map_cons, List.filter_cons, hc, if_true, Bool.not_true,
        Bool.false_eq_true, if_false, hrest]
    · simp only [List.filterMap_cons, List.map_cons, List.filter_cons, hc, Bool.not_false, if_true,
        Bool.false_eq_true, if_false, hrest, hplace]

/-- The places of the removals in one directory. -/
theorem places_removals {s : Sink} (hroot : s.root = options.output) {ms : List String}
    (hms : ms ∈ generatedNames) : ∃ nss : List (List String), nss.Nodup ∧
      (Sink.removals fs s (Text.joinWith "/" ms)).map (fun c => fs.place (options.output.join c.path)) =
        nss.map fun ns => fs.place options.output ++ (ms ++ ns) := by
  obtain ⟨hne, hnames⟩ := isName_generatedNames ms hms
  unfold Sink.removals
  split
  · next hd =>
    rw [Sink.stale_eq hne hnames hw hd, hroot, List.map_map]
    refine ⟨((fs.filesBelow (fs.place options.output ++ ms)).map (·.1)).filter fun ns =>
      !s.produced.contains (Sink.walkedName (ms ++ ns)), ?_, ?_⟩
    · exact (FileSystem.nodup_filesBelow fs _).sublist List.filter_sublist
    · apply places_filterMap hw hplain s.produced _
      intro e he
      rw [← List.append_assoc, (FileSystem.mem_filesBelow_iff.1 he).2]
      rfl
  · exact ⟨[], .nil, rfl⟩

/-- No place is removed twice. -/
theorem nodup_removals {s : Sink} (hroot : s.root = options.output) :
    ((generated.flatMap (Sink.removals fs s)).map fun c => fs.place (options.output.join c.path)).Nodup := by
  rw [generated_eq, List.flatMap_map, List.map_flatMap]
  have hplaces {ms : List String} (hms : ms ∈ generatedNames) := places_removals hw hplain hroot hms
  refine List.nodup_flatMap.2 ⟨?_, ?_⟩
  · intro ms hms
    obtain ⟨nss, hnodup, heq⟩ := hplaces hms
    rw [heq]
    exact hnodup.map fun _ _ h => List.append_cancel_left (List.append_cancel_left h)
  · have happart : generatedNames.Pairwise fun ms ms' => ∀ a b, ms ++ a ≠ ms' ++ b := by
      have hscenes : scenesDir ≠ imagesDir := by decide
      have hforks : gameDir ≠ forksDir := by decide
      simp [generatedNames, hscenes, hforks]
    apply happart.imp_of_mem
    intro ms ms' hms hms' hne
    obtain ⟨nss, -, heq⟩ := hplaces hms
    obtain ⟨nss', -, heq'⟩ := hplaces hms'
    simp only [Function.onFun, heq, heq', List.disjoint_left, List.mem_map]
    rintro _ ⟨a, -, rfl⟩ ⟨b, -, h⟩
    exact hne a b (List.append_cancel_left h.symm)

end

/-! ## Reports -/

/-- What a dry run that ended well has reported: a verdict on each artifact in order, then removals. -/
structure Surveyed (fs : FileSystem) (options : ExportOptions) (now : Timestamp) (p : Preparation)
    (changes : List Change) : Prop where
  settled : Settled fs options p
  wellFormed : fs.WellFormed
  clean : p.CleanPictures
  plain : PlainBelow fs options
  report : ∃ verdicts s, changes = verdicts ++ generated.flatMap (Sink.removals fs s) ∧
    s.root = options.output ∧ s.produced = p.paths.reverse ∧
    verdicts.map (fun c => (c.path, c.status)) =
      (p.files (settledText fs options now)).map fun a => (a.1, verdict fs options.output a)

theorem files_congr (hp : Settled fs options p) {text text' : String → ExportManifest → String}
    (h : ∀ dir m, IsTree dir → text dir m = text' dir m) : p.files text = p.files text' := by
  have hforks : p.forks.flatMap (p.forkFiles text) = p.forks.flatMap (p.forkFiles text') := by
    apply List.flatMap_congr
    intro f hf
    simp only [forkFiles, h _ _ (isTree_fork hp hf)]
  simp only [files, hforks, h "" _ (.inl rfl)]

theorem surveyed_of_run {store : Store} {reviewers : Reviewers BundleView} {r : ExportResult}
    (hw : fs.WellFormed) (hdry : options.dryRun = true)
    (h : Export.run fs store options reviewers now = (.ok r, fs')) (hclean : r.prepared.CleanPictures)
    (hplain : PlainBelow fs options) : fs' = fs ∧ Surveyed fs options now r.prepared r.changes := by
  obtain ⟨hrun, w', hwrite, rfl, hchanges⟩ := Export.runs_of_run h
  have hp := settled_of_run hrun
  rw [hdry] at hwrite
  obtain ⟨hfiles, verdicts, hverdicts, hreport⟩ := compared_of_write hp hwrite
  refine ⟨hfiles, hp, hw, hclean, hplain, verdicts, _, hchanges.trans hreport, rfl, rfl, ?_⟩
  have hmap : verdicts.map (fun c => (c.path, c.status)) =
      (r.prepared.files (manifestText fs options now)).map fun a => (a.1, verdict fs options.output a) :=
    map_eq_of_forall₂ (hverdicts.imp fun a c hc =>
      Prod.ext (verdict_of_changeFor hc).1 (verdict_of_changeFor hc).2)
  rw [hmap]
  by_cases hl : fs.Leads options.output
  · rw [files_congr hp fun dir m hd => ?_]
    simp only [manifestText, settledText, earlierText_eq hw hd hl]
  · -- nothing is found, so the texts do not matter
    have hnew (text : String → ExportManifest → String) :
        (r.prepared.files text).map (fun a => (a.1, verdict fs options.output a)) =
          r.prepared.paths.map fun path => (path, ChangeStatus.new) := by
      rw [← paths_files text, List.map_map]
      apply List.map_congr_left
      intro a ha
      have hno : fs.isFile (options.output.join a.1) ≠ true := fun hfile =>
        hl (((clean_files hp hw hclean ha).isFile_iff hw).1 hfile).1
      rw [verdict_of_not_isFile hno]
      rfl
    rw [hnew, hnew]

theorem reported_verdicts_iff {s : ChangeStatus} {l : Location} {verdicts : List Change}
    (hverdicts : verdicts.map (fun c => (c.path, c.status)) =
      (p.files (settledText fs options now)).map fun a => (a.1, verdict fs options.output a)) :
    Reported fs options.output verdicts s l ↔ ∃ a ∈ p.files (settledText fs options now),
      verdict fs options.output a = s ∧ fs.place (options.output.join a.1) = l := by
  have hiff (pair : String × ChangeStatus) : (∃ c ∈ verdicts, (c.path, c.status) = pair) ↔
      ∃ a ∈ p.files (settledText fs options now), (a.1, verdict fs options.output a) = pair := by
    rw [← List.mem_map, hverdicts, List.mem_map]
  constructor
  · rintro ⟨c, hc, rfl, rfl⟩
    obtain ⟨a, ha, heq⟩ := (hiff (c.path, c.status)).1 ⟨c, hc, rfl⟩
    obtain ⟨hpath, hstatus⟩ := Prod.mk.inj heq
    exact ⟨a, ha, hstatus, by rw [hpath]⟩
  · rintro ⟨a, ha, rfl, rfl⟩
    obtain ⟨c, hc, heq⟩ := (hiff (a.1, verdict fs options.output a)).2 ⟨a, ha, rfl⟩
    obtain ⟨hpath, hstatus⟩ := Prod.mk.inj heq
    exact ⟨c, hc, hstatus, by rw [hpath]⟩

namespace Surveyed

variable {changes : List Change} (h : Surveyed fs options now p changes)
include h

/-- A dry run reports its verdicts on the artifacts, and leftovers if the path of the output leads there. -/
theorem reported_iff {s : ChangeStatus} {l : Location} :
    Reported fs options.output changes s l ↔
      (∃ a ∈ p.files (settledText fs options now), verdict fs options.output a = s ∧
        fs.place (options.output.join a.1) = l) ∨
      s = .removed ∧ fs.Leads options.output ∧ Leftover fs options p l := by
  obtain ⟨verdicts, sink, rfl, hroot, hproduced, hverdicts⟩ := h.report
  rw [← reported_verdicts_iff hverdicts, ← mem_removals_iff h.wellFormed h.plain hroot hproduced]
  have hremoved : ∀ c ∈ generated.flatMap (Sink.removals fs sink), c.status = .removed := by
    intro c hc
    obtain ⟨dir, -, hc⟩ := List.mem_flatMap.1 hc
    unfold Sink.removals at hc
    split at hc
    · obtain ⟨⟨rel, q⟩, -, rfl⟩ := List.mem_map.1 hc
      rfl
    · cases hc
  constructor
  · rintro ⟨c, hc, rfl, hl⟩
    rcases List.mem_append.1 hc with hc | hc
    · exact .inl ⟨c, hc, rfl, hl⟩
    · exact .inr ⟨hremoved c hc, c, hc, hl⟩
  · rintro (⟨c, hc, hs, hl⟩ | ⟨rfl, c, hc, hl⟩)
    · exact ⟨c, List.mem_append_left _ hc, hs, hl⟩
    · exact ⟨c, List.mem_append_right _ hc, hremoved c hc, hl⟩

theorem reported_verdict_iff {s : ChangeStatus} {l : Location} (hne : s ≠ .removed) :
    Reported fs options.output changes s l ↔ ∃ a ∈ p.files (settledText fs options now),
      verdict fs options.output a = s ∧ fs.place (options.output.join a.1) = l := by
  rw [h.reported_iff]
  simp [hne]

theorem reported_leftover_iff {l : Location} :
    Reported fs options.output changes .removed l ↔ fs.Leads options.output ∧ Leftover fs options p l := by
  rw [h.reported_iff]
  constructor
  · rintro (⟨a, -, hv, -⟩ | ⟨-, hleft⟩)
    · exact absurd hv verdict_ne_removed
    · exact hleft
  · exact fun hleft => .inr ⟨rfl, hleft⟩

/-- No artifact is a leftover. -/
theorem not_leftover (ha : a ∈ p.files (settledText fs options now)) :
    ¬Leftover fs options p (fs.place (options.output.join a.1)) := by
  rintro ⟨ms, -, ns, -, hl, -, hnew⟩
  have hclean := clean_files h.settled h.wellFormed h.clean ha
  rw [place_inBundle hclean.inBundle] at hl
  rw [← List.append_cancel_left hl] at hnew
  exact hnew (recognised_of_clean ha hclean)

/-- No place is reported twice. -/
theorem nodup_reported : (changes.map fun c => fs.place (options.output.join c.path)).Nodup := by
  obtain ⟨verdicts, sink, rfl, hroot, hproduced, hverdicts⟩ := h.report
  have hplaces : verdicts.map (fun c => fs.place (options.output.join c.path)) =
      (p.files (settledText fs options now)).map fun a => fs.place (options.output.join a.1) := by
    have := congrArg (List.map fun pair : String × ChangeStatus => fs.place (options.output.join pair.1)) hverdicts
    simpa only [List.map_map, Function.comp_def] using this
  rw [List.map_append]
  refine List.nodup_append.2 ⟨?_, nodup_removals h.wellFormed h.plain hroot, ?_⟩
  · rw [hplaces]
    exact nodup_places h.settled h.wellFormed h.clean _
  · rintro l hl l' hl' rfl
    rw [hplaces] at hl
    obtain ⟨a, ha, rfl⟩ := List.mem_map.1 hl
    obtain ⟨c, hc, heq⟩ := List.mem_map.1 hl'
    exact h.not_leftover ha ((mem_removals_iff h.wellFormed h.plain hroot hproduced).1 ⟨c, hc, heq⟩).2

end Surveyed

end Preparation

end StoryPress
