import StoryPress.Proofs.Compared

/-!
# Dry runs predict real runs

* `Predicts`: each place is reported as what a real run does to it;
* `Foreseen`: what a dry run finds is what a real run meets;
* `dry_run_predicts_iff`: a dry run predicts the forced export exactly if this is so, as it is whenever the
  pictures are apart from the output and the path of the output does not go up.
-/

namespace StoryPress.Preparation

open Layout

/-- Contents of a place are the same to an export: by their digests where a picture is copied to it, by their
bytes elsewhere. -/
def Same (fs : FileSystem) (options : ExportOptions) (as : List Artifact) (l : Location) (old new : ByteArray) :
    Prop :=
  old = new ∨ ∃ a ∈ as, fs.place (options.output.join a.1) = l ∧ (∃ source, a.2 = .copyOf source) ∧
    Hash.sha256Hex old = Hash.sha256Hex new

/-- The changes tell what becomes of the files `fs` when the artifacts are put among them and `fs'` is left. -/
structure Predicts (fs fs' : FileSystem) (options : ExportOptions) (as : List Artifact)
    (changes : List Change) : Prop where
  distinct : (changes.map fun c => fs.place (options.output.join c.path)).Nodup
  new_iff : ∀ l, Reported fs options.output changes .new l ↔ fs.fileAt l = none ∧ (fs'.fileAt l).isSome
  unchanged_iff : ∀ l, Reported fs options.output changes .unchanged l ↔
    (∃ a ∈ as, fs.place (options.output.join a.1) = l) ∧
      ∃ old new, fs.fileAt l = some old ∧ fs'.fileAt l = some new ∧ Same fs options as l old new
  modified_iff : ∀ l, Reported fs options.output changes .modified l ↔
    ∃ old new, fs.fileAt l = some old ∧ fs'.fileAt l = some new ∧ ¬Same fs options as l old new
  removed_iff : ∀ l, Reported fs options.output changes .removed l ↔
    (fs.fileAt l).isSome ∧ fs'.fileAt l = none
  unreported : ∀ l, (∀ s, ¬Reported fs options.output changes s l) → fs'.fileAt l = fs.fileAt l

/-- What a dry run finds is what a real run meets. The path of the output leads to the old artifacts, or there
are none; leftovers are removed if and only if it leads to them; and a copy compares with what it replaces as
its source did before the run. -/
structure Foreseen (fs fs' : FileSystem) (options : ExportOptions) (p : Preparation) (as : List Artifact) :
    Prop where
  found : fs.Leads options.output ∨ ∀ path ∈ p.paths, fs.fileAt (fs.place (options.output.join path)) = none
  swept : ∀ l, Leftover fs options p l → (fs'.fileAt l = none ↔ fs.Leads options.output)
  copied : ∀ a ∈ as, ∀ planned new old, a.2.bytesIn fs = some planned →
    overlay fs options.output as (fs.place (options.output.join a.1)) = some new →
    fs.fileAt (fs.place (options.output.join a.1)) = some old → (a.2.Alike old planned ↔ a.2.Alike old new)

variable {fs fs' : FileSystem} {options : ExportOptions} {p : Preparation} {now : Timestamp} {a : Artifact}
  {changes : List Change} {l : Location}

section
variable (hs : Surveyed fs options now p changes)
include hs

/-- To an artifact contents are alike if they are the same to the export. -/
theorem alike_iff_same (ha : a ∈ p.files (settledText fs options now)) {old new : ByteArray} :
    a.2.Alike old new ↔
      Same fs options (p.files (settledText fs options now)) (fs.place (options.output.join a.1)) old new := by
  have hnodup : ((p.files (settledText fs options now)).map fun a =>
      fs.place (options.output.join a.1)).Nodup :=
    nodup_places hs.settled hs.wellFormed hs.clean _
  constructor
  · intro h
    obtain ⟨dir, -, u, -, rfl⟩ | ⟨-, s, hc⟩ := mem_files hs.settled ha
    · exact .inr ⟨_, ha, rfl, ⟨_, rfl⟩, h⟩
    · rw [hc] at h
      exact .inl h
  · rintro (rfl | ⟨b, hb, hplace, ⟨source, hc⟩, hhash⟩)
    · obtain ⟨path, content⟩ := a
      cases content <;> rfl
    · obtain rfl := List.inj_on_of_nodup_map hnodup hb ha hplace
      rw [hc]
      exact hhash

/-- What a dry run says of an artifact whose file it finds. -/
theorem verdict_of_found (ha : a ∈ p.files (settledText fs options now)) (hl : fs.Leads options.output)
    {old new : ByteArray} (hold : fs.fileAt (fs.place (options.output.join a.1)) = some old)
    (hnew : a.2.bytesIn fs = some new) :
    verdict fs options.output a = if a.2.Alike old new then .unchanged else .modified := by
  have hclean := clean_files hs.settled hs.wellFormed hs.clean ha
  have hfile : fs.isFile (options.output.join a.1) = true := by
    refine (hclean.isFile_iff hs.wellFormed).2 ⟨hl, ?_⟩
    rw [← place_inBundle hclean.inBundle, hold]
    rfl
  exact verdict_of_isFile hfile hold hnew

end

section
variable (hd : Delivered fs fs' options now p)
include hd

/-- An artifact is a file afterwards, as it was left by what was put. -/
theorem fileAt_artifact (hc : p.CleanPictures) (ha : a ∈ p.files (settledText fs options now)) :
    ∃ new, overlay fs options.output (p.files (settledText fs options now))
        (fs.place (options.output.join a.1)) = some new ∧
      fs'.fileAt (fs.place (options.output.join a.1)) = some new := by
  obtain ⟨new, hnew⟩ := Option.isSome_iff_exists.1 (hd.overlay_isSome ha)
  exact ⟨new, hnew, (hd.fileAt_of_clean hc ha).trans hnew⟩

/-- Besides artifacts nothing changes but that leftovers go. -/
theorem fileAt_of_not_artifact
    (hno : ∀ a ∈ p.files (settledText fs options now), fs.place (options.output.join a.1) ≠ l) :
    fs'.fileAt l = fs.fileAt l ∨ fs'.fileAt l = none ∧ Leftover fs options p l := by
  have hold := overlay_of_ne hno
  cases hc : fs'.fileAt l with
  | some c =>
    left
    rw [← hold, hd.overlay_eq hc]
  | none =>
    cases hfile : fs.fileAt l with
    | none => exact .inl rfl
    | some c =>
      right
      refine ⟨rfl, ?_⟩
      apply Classical.byContradiction
      intro hleft
      have hkept := hd.fileAt_eq fun ms hms ns hns heq => by
        apply Classical.byContradiction
        intro hnew
        exact hleft ⟨ms, hms, ns, hns, heq, by rw [hfile]; rfl, hnew⟩
      rw [hc, hold, hfile] at hkept
      cases hkept

end

theorem leads_of_found
    (hfound : fs.Leads options.output ∨
      ∀ path ∈ p.paths, fs.fileAt (fs.place (options.output.join path)) = none)
    (ha : a ∈ p.files (settledText fs options now)) {old : ByteArray}
    (hold : fs.fileAt (fs.place (options.output.join a.1)) = some old) : fs.Leads options.output := by
  rcases hfound with hl | hnone
  · exact hl
  · rw [hnone a.1 (paths_files _ ▸ List.mem_map_of_mem ha)] at hold
    cases hold

section
variable (hd : Delivered fs fs' options now p) (hs : Surveyed fs options now p changes)
  (hf : Foreseen fs fs' options p (p.files (settledText fs options now)))
include hd hs hf

/-- A dry run that finds what the real run meets compares as that leaves the files. -/
theorem verdict_of_foreseen (ha : a ∈ p.files (settledText fs options now)) {old new : ByteArray}
    (hold : fs.fileAt (fs.place (options.output.join a.1)) = some old)
    (hfile : fs'.fileAt (fs.place (options.output.join a.1)) = some new) :
    verdict fs options.output a = if a.2.Alike old new then .unchanged else .modified := by
  have hl := leads_of_found hf.found ha hold
  obtain ⟨planned, hplanned⟩ := Option.isSome_iff_exists.1 (bytesIn_isSome hd.settled hd.wellFormed ha)
  rw [hd.fileAt_of_clean hs.clean ha] at hfile
  rw [verdict_of_found hs ha hl hold hplanned]
  exact if_congr (hf.copied a ha planned new old hplanned hfile hold) rfl rfl

/-- An artifact that is not said to be new has a file before and afterwards. -/
theorem exists_of_verdict_ne_new (ha : a ∈ p.files (settledText fs options now))
    (hv : verdict fs options.output a ≠ .new) :
    ∃ old new, fs.fileAt (fs.place (options.output.join a.1)) = some old ∧
      fs'.fileAt (fs.place (options.output.join a.1)) = some new ∧
      verdict fs options.output a = if a.2.Alike old new then .unchanged else .modified := by
  obtain ⟨new, -, hfile⟩ := fileAt_artifact hd hs.clean ha
  cases hold : fs.fileAt (fs.place (options.output.join a.1)) with
  | none => exact absurd (verdict_of_absent hold) hv
  | some old => exact ⟨old, new, rfl, hfile, verdict_of_foreseen hd hs hf ha hold hfile⟩

theorem reported_new_iff (l : Location) :
    Reported fs options.output changes .new l ↔ fs.fileAt l = none ∧ (fs'.fileAt l).isSome := by
  rw [hs.reported_verdict_iff (by decide)]
  constructor
  · rintro ⟨a, ha, hv, rfl⟩
    obtain ⟨new, -, hfile⟩ := fileAt_artifact hd hs.clean ha
    refine ⟨?_, by rw [hfile]; rfl⟩
    cases hold : fs.fileAt (fs.place (options.output.join a.1)) with
    | none => rfl
    | some old =>
      rw [verdict_of_foreseen hd hs hf ha hold hfile] at hv
      split at hv <;> cases hv
  · rintro ⟨hold, hfile⟩
    apply Classical.byContradiction
    intro hno
    have hne : ∀ a ∈ p.files (settledText fs options now), fs.place (options.output.join a.1) ≠ l := by
      rintro a ha rfl
      exact hno ⟨a, ha, verdict_of_absent hold, rfl⟩
    rcases fileAt_of_not_artifact hd hne with h | ⟨h, -⟩
    · rw [h, hold] at hfile
      cases hfile
    · rw [h] at hfile
      cases hfile

theorem reported_unchanged_iff (l : Location) :
    Reported fs options.output changes .unchanged l ↔
      (∃ a ∈ p.files (settledText fs options now), fs.place (options.output.join a.1) = l) ∧
        ∃ old new, fs.fileAt l = some old ∧ fs'.fileAt l = some new ∧
          Same fs options (p.files (settledText fs options now)) l old new := by
  rw [hs.reported_verdict_iff (by decide)]
  constructor
  · rintro ⟨a, ha, hv, rfl⟩
    obtain ⟨old, new, hold, hfile, hverdict⟩ := exists_of_verdict_ne_new hd hs hf ha (hv ▸ by decide)
    rw [hv] at hverdict
    split at hverdict
    · next halike => exact ⟨⟨a, ha, rfl⟩, old, new, hold, hfile, (alike_iff_same hs ha).1 halike⟩
    · cases hverdict
  · rintro ⟨⟨a, ha, rfl⟩, old, new, hold, hfile, hsame⟩
    refine ⟨a, ha, ?_, rfl⟩
    rw [verdict_of_foreseen hd hs hf ha hold hfile, if_pos ((alike_iff_same hs ha).2 hsame)]

theorem reported_modified_iff (l : Location) :
    Reported fs options.output changes .modified l ↔
      ∃ old new, fs.fileAt l = some old ∧ fs'.fileAt l = some new ∧
        ¬Same fs options (p.files (settledText fs options now)) l old new := by
  rw [hs.reported_verdict_iff (by decide)]
  constructor
  · rintro ⟨a, ha, hv, rfl⟩
    obtain ⟨old, new, hold, hfile, hverdict⟩ := exists_of_verdict_ne_new hd hs hf ha (hv ▸ by decide)
    rw [hv] at hverdict
    split at hverdict
    · cases hverdict
    · next hnot => exact ⟨old, new, hold, hfile, fun hsame => hnot ((alike_iff_same hs ha).2 hsame)⟩
  · rintro ⟨old, new, hold, hfile, hdiffer⟩
    by_cases hart : ∃ a ∈ p.files (settledText fs options now), fs.place (options.output.join a.1) = l
    · obtain ⟨a, ha, rfl⟩ := hart
      refine ⟨a, ha, ?_, rfl⟩
      rw [verdict_of_foreseen hd hs hf ha hold hfile, if_neg]
      exact fun halike => hdiffer ((alike_iff_same hs ha).1 halike)
    · rcases fileAt_of_not_artifact hd fun a ha he => hart ⟨a, ha, he⟩ with h | ⟨h, -⟩
      · rw [hold, hfile] at h
        exact absurd (.inl (Option.some.inj h).symm) hdiffer
      · rw [h] at hfile
        cases hfile

theorem reported_removed_iff (l : Location) :
    Reported fs options.output changes .removed l ↔ (fs.fileAt l).isSome ∧ fs'.fileAt l = none := by
  rw [hs.reported_leftover_iff]
  constructor
  · rintro ⟨hl, hleft⟩
    exact ⟨hleft.isSome, (hf.swept l hleft).2 hl⟩
  · rintro ⟨hfile, hgone⟩
    have hne : ∀ a ∈ p.files (settledText fs options now), fs.place (options.output.join a.1) ≠ l := by
      rintro a ha rfl
      obtain ⟨new, -, hnew⟩ := fileAt_artifact hd hs.clean ha
      rw [hgone] at hnew
      cases hnew
    rcases fileAt_of_not_artifact hd hne with h | ⟨-, hleft⟩
    · rw [← h, hgone] at hfile
      cases hfile
    · exact ⟨(hf.swept l hleft).1 hgone, hleft⟩

theorem fileAt_of_unreported {l : Location} (hno : ∀ s, ¬Reported fs options.output changes s l) :
    fs'.fileAt l = fs.fileAt l := by
  have hne : ∀ a ∈ p.files (settledText fs options now), fs.place (options.output.join a.1) ≠ l := by
    rintro a ha rfl
    exact hno _ (hs.reported_iff.2 (.inl ⟨a, ha, rfl, rfl⟩))
  rcases fileAt_of_not_artifact hd hne with h | ⟨hgone, hleft⟩
  · exact h
  · exact absurd (hs.reported_leftover_iff.2 ⟨(hf.swept l hleft).1 hgone, hleft⟩) (hno _)

theorem predicts_of_foreseen : Predicts fs fs' options (p.files (settledText fs options now)) changes where
  distinct := hs.nodup_reported
  new_iff := reported_new_iff hd hs hf
  unchanged_iff := reported_unchanged_iff hd hs hf
  modified_iff := reported_modified_iff hd hs hf
  removed_iff := reported_removed_iff hd hs hf
  unreported _ := fileAt_of_unreported hd hs hf

end

section
variable (hd : Delivered fs fs' options now p) (hs : Surveyed fs options now p changes)
  (h : Predicts fs fs' options (p.files (settledText fs options now)) changes)
include hs h

/-- Without a way to the output everything is reported as new. -/
theorem found_of_predicts : fs.Leads options.output ∨
    ∀ path ∈ p.paths, fs.fileAt (fs.place (options.output.join path)) = none := by
  by_cases hl : fs.Leads options.output
  · exact .inl hl
  · right
    intro path hpath
    rw [← paths_files (settledText fs options now)] at hpath
    obtain ⟨a, ha, rfl⟩ := List.mem_map.1 hpath
    have hclean := clean_files hs.settled hs.wellFormed hs.clean ha
    have hnew : verdict fs options.output a = .new :=
      verdict_of_not_isFile fun hfile => hl ((hclean.isFile_iff hs.wellFormed).1 hfile).1
    exact ((h.new_iff _).1 (hs.reported_iff.2 (.inl ⟨a, ha, hnew, rfl⟩))).1

theorem swept_of_predicts (hleft : Leftover fs options p l) : fs'.fileAt l = none ↔ fs.Leads options.output := by
  constructor
  · intro hgone
    exact (hs.reported_leftover_iff.1 ((h.removed_iff l).2 ⟨hleft.isSome, hgone⟩)).1
  · intro hl
    exact ((h.removed_iff l).1 (hs.reported_leftover_iff.2 ⟨hl, hleft⟩)).2

include hd

theorem copied_of_predicts (ha : a ∈ p.files (settledText fs options now)) {planned new old : ByteArray}
    (hplanned : a.2.bytesIn fs = some planned)
    (hnew : overlay fs options.output (p.files (settledText fs options now))
      (fs.place (options.output.join a.1)) = some new)
    (hold : fs.fileAt (fs.place (options.output.join a.1)) = some old) :
    a.2.Alike old planned ↔ a.2.Alike old new := by
  have hl := leads_of_found (found_of_predicts hs h) ha hold
  have hverdict := verdict_of_found hs ha hl hold hplanned
  have hfile := (hd.fileAt_of_clean hs.clean ha).trans hnew
  constructor
  · intro halike
    rw [if_pos halike] at hverdict
    obtain ⟨-, old', new', hold', hfile', hsame⟩ :=
      (h.unchanged_iff _).1 (hs.reported_iff.2 (.inl ⟨a, ha, hverdict, rfl⟩))
    obtain rfl := Option.some.inj (hold.symm.trans hold')
    obtain rfl := Option.some.inj (hfile.symm.trans hfile')
    exact (alike_iff_same hs ha).2 hsame
  · intro halike
    apply Classical.byContradiction
    intro hdiffer
    rw [if_neg hdiffer] at hverdict
    obtain ⟨old', new', hold', hfile', hsame⟩ :=
      (h.modified_iff _).1 (hs.reported_iff.2 (.inl ⟨a, ha, hverdict, rfl⟩))
    obtain rfl := Option.some.inj (hold.symm.trans hold')
    obtain rfl := Option.some.inj (hfile.symm.trans hfile')
    exact hsame ((alike_iff_same hs ha).1 halike)

theorem foreseen_of_predicts : Foreseen fs fs' options p (p.files (settledText fs options now)) where
  found := found_of_predicts hs h
  swept _ := swept_of_predicts hs h
  copied _ ha _ _ _ := copied_of_predicts hd hs h ha

end

section
variable (hd : Delivered fs fs' options now p) (hc : p.CleanPictures) (hapart : Apart fs options p)
include hd hc hapart

/-- Where pictures are apart from the output a copy has the bytes that its source has before the run. -/
theorem copied_of_apart (ha : a ∈ p.files (settledText fs options now)) :
    overlay fs options.output (p.files (settledText fs options now)) (fs.place (options.output.join a.1)) =
      a.2.bytesIn fs := by
  obtain ⟨before, after, hsplit⟩ := List.append_of_mem ha
  rw [hd.overlay_of_clean hc hsplit, hd.bytesPut_of_apart hapart hsplit]

theorem foreseen_of_found
    (hfound : fs.Leads options.output ∨
      ∀ path ∈ p.paths, fs.fileAt (fs.place (options.output.join path)) = none)
    (hswept : ∀ l, Leftover fs options p l → (fs'.fileAt l = none ↔ fs.Leads options.output)) :
    Foreseen fs fs' options p (p.files (settledText fs options now)) := by
  refine ⟨hfound, hswept, ?_⟩
  intro a ha planned new old hplanned hnew _
  rw [copied_of_apart hd hc hapart ha, hplanned] at hnew
  rw [Option.some.inj hnew]

theorem foreseen_of_leads (hl : fs.Leads options.output) (hl' : fs'.Leads options.output) :
    Foreseen fs fs' options p (p.files (settledText fs options now)) := by
  refine foreseen_of_found hd hc hapart (.inl hl) fun l hleft => iff_of_true ?_ hl
  obtain ⟨ms, hms, ns, hns, rfl, -, hnew⟩ := hleft
  exact hd.fileAt_eq_none hl' hms hns hnew

end

/-- Below a directory that is not there nothing is found. -/
theorem fileAt_eq_none_of_not_directory (hw : fs.WellFormed) (hdir : fs.node? l ≠ some .directory)
    {ns : List String} (hns : ns ≠ []) : fs.fileAt (l ++ ns) = none := by
  cases hfile : fs.fileAt (l ++ ns) with
  | none => rfl
  | some c => exact absurd (hw.node?_of_append hns (FileSystem.fileAt_eq_some_iff.1 hfile)) hdir

theorem foreseen_of_never_up (hd : Delivered fs fs' options now p) (hc : p.CleanPictures)
    (hapart : Apart fs options p) (hup : ".." ∉ options.output.segments) :
    Foreseen fs fs' options p (p.files (settledText fs options now)) := by
  by_cases hdir : fs.node? (fs.place options.output) = some .directory
  · have hl := FileSystem.leads_of_directory hd.wellFormed hup hdir
    exact foreseen_of_leads hd hc hapart hl (hd.leads_after hup)
  · refine foreseen_of_found hd hc hapart (.inr ?_) ?_
    · intro path hpath
      rw [← paths_files (settledText fs options now)] at hpath
      obtain ⟨a, ha, rfl⟩ := List.mem_map.1 hpath
      have hclean := clean_files hd.settled hd.wellFormed hc ha
      rw [place_inBundle hclean.inBundle]
      exact fileAt_eq_none_of_not_directory hd.wellFormed hdir hclean.1
    · rintro _ ⟨ms, -, ns, hns, rfl, hfile, -⟩
      have hne := List.append_ne_nil_of_right_ne_nil ms hns
      rw [fileAt_eq_none_of_not_directory hd.wellFormed hdir hne] at hfile
      cases hfile

/-- What is settled before the first write does not depend on the mode. -/
theorem prepared_eq {store : Store} {reviewers : Reviewers BundleView} {q : Preparation}
    (hp : run fs store { options with dryRun := true } reviewers = .ok p)
    (hq : run fs store { options with dryRun := false, force := true } reviewers = .ok q) : p = q := by
  have hagain : run fs store { options with dryRun := false, force := true } reviewers = .ok p :=
    run_eq_ok_iff.2 { run_eq_ok_iff.1 hp with usable := (run_eq_ok_iff.1 hq).usable }
  exact Except.ok.inj (hagain.symm.trans hq)

/-- A dry run leaves the files as they are. It predicts the forced export on them exactly if it finds there what
that export meets. -/
theorem dry_run_predicts_iff {store : Store} {reviewers : Reviewers BundleView} {now' : Timestamp}
    {r r' : ExportResult} {left : FileSystem} (hw : fs.WellFormed)
    (hclock : now = now' ∨ options.generatedAt.isSome)
    (hdry : Export.run fs store { options with dryRun := true } reviewers now = (.ok r, left))
    (hreal : Export.run fs store { options with dryRun := false, force := true } reviewers now' = (.ok r', fs'))
    (hclean : r'.prepared.CleanPictures) (hplain : PlainBelow fs options) :
    left = fs ∧
      (Predicts fs fs' options (r'.prepared.files (settledText fs options now')) r.changes ↔
        Foreseen fs fs' options r'.prepared (r'.prepared.files (settledText fs options now'))) ∧
      (Apart fs options r'.prepared →
        (fs.Leads options.output ∧ fs'.Leads options.output) ∨ ".." ∉ options.output.segments →
        Foreseen fs fs' options r'.prepared (r'.prepared.files (settledText fs options now'))) ∧
      (Outside fs options → Apart fs options r'.prepared) := by
  have hprepared := prepared_eq (Export.runs_of_run hdry).1 (Export.runs_of_run hreal).1
  obtain ⟨hleft, hs⟩ := surveyed_of_run hw rfl hdry (hprepared ▸ hclean) hplain
  have hd := delivered_of_run hw rfl hreal
  have htext : settledText fs options now = settledText fs options now' := by
    funext dir m
    rcases hclock with rfl | hpinned
    · rfl
    · obtain ⟨t, ht⟩ := Option.isSome_iff_exists.1 hpinned
      simp only [settledText, ExportManifest.timeFor, ht]
  have hd : Delivered fs fs' options now' r'.prepared := ⟨hd.settled.of_mode, hd.wellFormed, hd.written⟩
  have hs : Surveyed fs options now' r'.prepared r.changes := by
    obtain ⟨verdicts, s, hchanges, hroot, hproduced, hverdicts⟩ := hs.report
    rw [hprepared] at hproduced hverdicts
    refine ⟨hd.settled, hw, hclean, hplain, verdicts, s, hchanges, hroot, hproduced, ?_⟩
    rw [← htext]
    exact hverdicts
  have hiff : Predicts fs fs' options (r'.prepared.files (settledText fs options now')) r.changes ↔
      Foreseen fs fs' options r'.prepared (r'.prepared.files (settledText fs options now')) :=
    ⟨foreseen_of_predicts hd hs, predicts_of_foreseen hd hs⟩
  refine ⟨hleft, hiff, ?_, ?_⟩
  · intro hapart hway
    rcases hway with ⟨hl, hl'⟩ | hup
    · exact foreseen_of_leads hd hclean hapart hl hl'
    · exact foreseen_of_never_up hd hclean hapart hup
  · intro hout
    apply hout.apart hd.settled hw
    intro u hu
    exact (clean_relative hd.settled hw hclean hu).inBundle.relative

/-- A bundle with a script. -/
def scriptFiles : FileSystem where
  nodes := .ofList [(["out"], .directory), (["out", "game"], .directory),
    (["out", "game", "script.rpy"], .file (Bytes.ofList [1]))]

def plainShelf : Shelf := (({} : Shelf).addProject { id := "p", scenes := ["s"] }).addScene { id := "s" }

/-- The output behind a directory that is not there. -/
def detourOptions : ExportOptions := { project := "p", output := ⟨"a/../out"⟩, assets := ⟨"assets"⟩ }

set_option maxRecDepth 100000 in
/-- A dry run reports the old script as new where the way to the output goes through a missing directory, which
the export makes. -/
theorem script_reported_new_behind_missing_directory :
    scriptFiles.WellFormed ∧ PlainBelow scriptFiles detourOptions ∧ Outside scriptFiles detourOptions ∧
    ∃ r r' left fs',
      Export.run scriptFiles (.memory plainShelf) { detourOptions with dryRun := true } {} default =
        (.ok r, left) ∧
      Export.run scriptFiles (.memory plainShelf) { detourOptions with dryRun := false, force := true } {}
        default = (.ok r', fs') ∧
      r'.prepared.CleanPictures ∧
      ¬Predicts scriptFiles fs' detourOptions
        (r'.prepared.files (settledText scriptFiles detourOptions default)) r.changes := by
  have hw : scriptFiles.WellFormed := by decide +kernel
  have hplain : PlainBelow scriptFiles detourOptions := plainBelow_of_entries (by decide +kernel)
  have hout : Outside scriptFiles detourOptions := by
    unfold Outside
    decide +kernel
  have hdry : (Export.run scriptFiles (.memory plainShelf) { detourOptions with dryRun := true } {}
      default).1.isOk = true := by
    decide +kernel
  have hreal : (match Export.run scriptFiles (.memory plainShelf)
        { detourOptions with dryRun := false, force := true } {} default with
      | (.ok r, _) => r.prepared.compiled.catalog.usages.isEmpty && r.prepared.paths.contains "game/script.rpy"
      | (.error _, _) => false) = true := by
    decide +kernel
  cases hr : Export.run scriptFiles (.memory plainShelf) { detourOptions with dryRun := true } {} default with
  | mk result left =>
    rw [hr] at hdry
    cases result with
    | error e => cases hdry
    | ok r =>
      split at hreal
      · next r' fs' hr' =>
        simp only [Bool.and_eq_true, List.isEmpty_iff, List.contains_iff_mem] at hreal
        obtain ⟨hnone, hpath⟩ := hreal
        have hclean : r'.prepared.CleanPictures := by
          intro u hu
          rw [hnone] at hu
          cases hu
        refine ⟨hw, hplain, hout, r, r', left, fs', rfl, hr', hclean, ?_⟩
        intro hpredicts
        obtain ⟨-, hiff, -⟩ := dry_run_predicts_iff hw (.inl rfl) hr hr' hclean hplain
        rcases (hiff.1 hpredicts).found with hleads | habsent
        · have hdir := FileSystem.isDirectory_iff.2 ⟨hleads.locate (by decide), by decide +kernel⟩
          have hno : scriptFiles.isDirectory detourOptions.output = false := by decide +kernel
          rw [hno] at hdir
          cases hdir
        · have hfile := habsent _ hpath
          have hthere : (scriptFiles.fileAt (scriptFiles.place
              (detourOptions.output.join "game/script.rpy"))).isSome = true := by decide +kernel
          rw [hfile] at hthere
          cases hthere
      · cases hreal

end StoryPress.Preparation
