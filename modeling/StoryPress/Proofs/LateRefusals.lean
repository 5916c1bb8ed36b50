import StoryPress.Proofs.Archives
import StoryPress.Proofs.Endings
import StoryPress.Proofs.Unmoved

/-!
# Refusals of packaging runs

A run checks the targets, the trees and the shared files before it writes. The manifest of a tree is read as a list of
licences only when the tree is packaged, so that one that is no JSON is met after the trees before it.

* `outcome_mapM_error`: a series of jobs fails at one of them, with those before it done;
* `Package.manifestOf_of_runs`: no manifest of a tree is touched by the archives that are made before it;
* `Package.files_of_refusal`: what a run that is refused has written.
-/

namespace StoryPress

open Layout

/-! ## Refusals -/

/-- A refusal of what is given, or of the directory. -/
def Failure.Refuses (e : Failure) : Prop :=
  (∃ reason, e = .packaging reason) ∨ ∃ dir reason, e = .unusableOutput dir reason

/-- The reason that a packager gives for what it refuses. -/
def Failure.reason? : Failure → Option String
  | .packaging reason => some reason
  | _ => none

theorem Failure.reason?_eq_some {e : Failure} {reason : String} : e.reason? = some reason ↔ e = .packaging reason := by
  cases e <;> simp [reason?]

theorem Failure.OfSystem.not_refuses {e : Failure} (h : e.OfSystem) : ¬e.Refuses := by
  obtain ⟨path, fault, rfl⟩ := h
  rintro (⟨reason, h⟩ | ⟨dir, reason, h⟩)
  · cases h
  · cases h

theorem Failure.OfReading.not_refuses {e : Failure} (h : e.OfReading) : ¬e.Refuses := by
  obtain ⟨context, cause, rfl⟩ := h
  rintro (⟨reason, h⟩ | ⟨dir, reason, h⟩)
  · cases h
  · cases h

section
variable {α β : Type} {w w' : Workbench} {e : Failure}

theorem outcome_bind_error {x : Work α} {f : α → Work β} :
    outcome (x >>= f) w = (.error e, w') ↔
      outcome x w = (.error e, w') ∨ ∃ a w₁, Runs x w a w₁ ∧ outcome (f a) w₁ = (.error e, w') := by
  rw [Runs.outcome_bind]
  unfold Runs
  rcases outcome x w with ⟨e₁ | a, w₁⟩
  · simp
  · simp only [Prod.mk.injEq, reduceCtorEq, false_and, false_or, Except.ok.injEq]
    constructor
    · exact fun h => ⟨a, w₁, ⟨rfl, rfl⟩, h⟩
    · rintro ⟨a', w₂, ⟨rfl, rfl⟩, h⟩
      exact h

/-- A series of jobs fails at one of them, with those before it done. -/
theorem outcome_mapM_error {f : α → Work β} {as : List α} (h : outcome (as.mapM f) w = (.error e, w')) :
    ∃ before a after bs w₁, as = before ++ a :: after ∧ Runs (before.mapM f) w bs w₁ ∧
      outcome (f a) w₁ = (.error e, w') := by
  induction as generalizing w with
  | nil =>
    rw [List.mapM_nil] at h
    cases h
  | cons a as ih =>
    rw [List.mapM_cons] at h
    rcases outcome_bind_error.1 h with ha | ⟨b, w₁, ha, h⟩
    · exact ⟨[], a, as, [], w, rfl, Runs.mapM_nil_iff.2 ⟨rfl, rfl⟩, ha⟩
    · rcases outcome_bind_error.1 h with has | ⟨bs, w₂, -, h⟩
      · obtain ⟨before, a', after, bs, w₂, rfl, hbefore, hfail⟩ := ih has
        exact ⟨a :: before, a', after, b :: bs, w₂, rfl, Runs.mapM_cons_iff.2 ⟨b, w₁, bs, ha, hbefore, rfl⟩, hfail⟩
      · cases h

end

namespace Sink

/-- Putting an artifact is never refused. -/
theorem not_refuses_of_put {path : String} {content : Content} {w w' : Workbench} {e : Failure}
    (h : outcome (put path content) w = (.error e, w')) : ¬e.Refuses := by
  by_cases hd : w.sink.dryRun = true
  · exact ((keeps_put_dry w ⟨rfl, hd⟩).2 e (by rw [h])).not_refuses
  · exact ((keeps_put_real w (Bool.eq_false_iff.2 hd)).2 e (by rw [h])).not_refuses

end Sink

namespace Package

/-! ## Building an archive -/

section
variable {fs : FileSystem} {o : PackageOptions} {shared : Shared} {s : Source} {t : CheckedTarget} {e : Failure}

theorem not_refuses_of_addTree {a : Archive} {top : String} {dir : Path} (h : a.addTree fs top dir = .error e) :
    ¬e.Refuses := by
  rcases bind_eq_error.1 h with h | ⟨files, -, h⟩
  · unfold Archive.treeFiles at h
    split at h
    · next fault _ => exact Failure.OfSystem.not_refuses ⟨dir, fault, (Except.error.inj h).symm⟩
    · obtain ⟨⟨rel, p⟩, -, hread⟩ := exists_of_mapM_error h
      rcases bind_eq_error.1 hread with hread | ⟨bytes, -, hread⟩
      · exact (FileSystem.ofReading_of_readWithin hread).not_refuses
      · cases hread
  · cases h

theorem not_refuses_of_inputsOf (h : inputsOf fs s = .error e) : ¬e.Refuses := by
  unfold inputsOf at h
  dsimp only at h
  split at h
  · rcases bind_eq_error.1 h with h | ⟨bytes, -, h⟩
    · exact (FileSystem.ofReading_of_readWithin h).not_refuses
    · cases h
  · cases h

/-- Only the manifest of its tree can have the building of an archive refused. -/
theorem manifestOf_of_build (h : build fs o shared s t = .error e) (he : e.Refuses) :
    Legal.manifestOf fs s.root = .error e := by
  rcases bind_eq_error.1 h with h | ⟨⟨archive, files⟩, -, h⟩
  · exact absurd he (not_refuses_of_addTree h)
  · rcases bind_eq_error.1 h with h | ⟨entries, -, h⟩
    · rcases bind_eq_error.1 h with h | ⟨manifest, -, h⟩
      · exact h
      · cases h
    · rcases bind_eq_error.1 h with h | ⟨inputs, -, h⟩
      · exact absurd he (not_refuses_of_inputsOf h)
      · cases h

/-- The manifest of a tree is JSON, if there is one. -/
def Legible (fs : FileSystem) (s : Source) : Prop := ∃ m, Legal.manifestOf fs s.root = .ok m

theorem legible_of_build {p : Parts} (h : build fs o shared s t = .ok p) : Legible fs s := by
  obtain ⟨⟨archive, files⟩, -, h⟩ := bind_eq_ok.1 h
  obtain ⟨entries, hentries, -⟩ := bind_eq_ok.1 h
  obtain ⟨m, hm, -⟩ := bind_eq_ok.1 hentries
  exact ⟨m, hm⟩

/-- The manifest of a tree, where it cannot be read as one, is a file that is no JSON. -/
theorem manifestOf_refuses_iff {root : Path} :
    Legal.manifestOf fs root = .error e ∧ e.Refuses ↔
      fs.isFile (root.join exportManifest) = true ∧
      ∃ bytes c, fs.readWithin maxDocumentBytes (root.join exportManifest) = .ok bytes ∧
        Json.parseBytes Json.Tree.value bytes = .error c ∧
        e = .packaging ("unreadable " ++ (root.join exportManifest).text ++ ": " ++ Failure.categoryText c) := by
  constructor
  · rintro ⟨h, he⟩
    unfold Legal.manifestOf at h
    dsimp only at h
    split at h
    · cases h
    · next hfile =>
      refine ⟨by simpa using hfile, ?_⟩
      rcases bind_eq_error.1 h with h | ⟨bytes, hread, h⟩
      · exact absurd he (FileSystem.ofReading_of_readWithin h).not_refuses
      · split at h
        · cases h
        · next c hparse => exact ⟨bytes, c, hread, hparse, (Except.error.inj h).symm⟩
  · rintro ⟨hfile, bytes, c, hread, hparse, rfl⟩
    refine ⟨?_, .inl ⟨_, rfl⟩⟩
    unfold Legal.manifestOf
    dsimp only
    rw [if_neg (by simp [hfile])]
    refine bind_eq_error.2 (.inr ⟨bytes, hread, ?_⟩)
    rw [hparse]

/-- An archive that is refused is refused before anything of it is put. -/
theorem refused_of_packageOne {w w' : Workbench} (h : outcome (packageOne o shared s t) w = (.error e, w'))
    (he : e.Refuses) : Legal.manifestOf w.files s.root = .error e ∧ w'.files = w.files := by
  unfold packageOne at h
  rcases outcome_bind_error.1 h with h | ⟨⟨⟩, w₁, hu, h⟩
  · cases h
  obtain rfl := Runs.updating_iff.1 hu
  rcases outcome_bind_error.1 h with h | ⟨p, w₂, -, h⟩
  · obtain ⟨hbuild, rfl⟩ := Prod.mk.inj h
    exact ⟨manifestOf_of_build hbuild he, rfl⟩
  -- After the building there are only artifacts to put.
  exfalso
  rcases outcome_bind_error.1 h with h | ⟨archive, w₃, -, h⟩
  · exact Sink.not_refuses_of_put h he
  rcases outcome_bind_error.1 h with h | ⟨manifest, w₄, -, h⟩
  · exact Sink.not_refuses_of_put h he
  rcases outcome_bind_error.1 h with h | ⟨licenses, w₅, -, h⟩
  · exact Sink.not_refuses_of_put h he
  have hlast {stamps : List Path} {v : Workbench} (h : outcome (do
      let changes := (← get).sink.changes
      return ({ target := t.name, fork := s.fork, archive, manifest, licenses
                checksum := Hash.sha256Hex p.archive, size := p.archive.size, changes, stamps } : PackageResult))
        v = (.error e, w')) : False := by
    rcases outcome_bind_error.1 h with h | ⟨w₆, w₇, -, h⟩
    · cases h
    · cases h
  dsimp only at h
  split at h
  · rcases outcome_bind_error.1 h with h | ⟨stamps, w₆, -, h⟩
    · cases h
    · exact hlast h
  · rcases outcome_bind_error.1 h with h | ⟨stamps, w₆, -, h⟩
    · rcases outcome_bind_error.1 h with h | ⟨first, w₇, -, h⟩
      · exact Sink.not_refuses_of_put h he
      · rcases outcome_bind_error.1 h with h | ⟨second, w₈, -, h⟩
        · exact Sink.not_refuses_of_put h he
        · cases h
    · exact hlast h

end

/-! ## Manifests of trees are not touched -/

/-- No file of an archive is in the place of a manifest of a tree. -/
theorem place_ne_manifest (slug : String) {e : String} (he : e ∈ endings) (fs : FileSystem) (dist root : Path) :
    fs.place (dist.join (slug ++ e)) ≠ fs.place (root.join exportManifest) := by
  intro heq
  obtain ⟨l, n, hl⟩ := places_endings fs dist slug
  rw [hl e he, place_inBundle clean_manifests.1.inBundle, names_manifests.1] at heq
  have hname : n ++ e = exportManifest := List.singleton_inj.1 (List.append_inj' heq rfl).2
  have hsuffix : ∀ e ∈ endings, ¬e.toList <:+ exportManifest.toList := by decide
  apply hsuffix e he
  rw [← hname, String.toList_append]
  exact List.suffix_append _ _

/-- Archives have been made, and no manifest of a tree has been touched. -/
structure Left (fs fs' : FileSystem) (rs : List PackageResult) : Prop where
  extends_files : fs.Extends fs'
  manifest_eq : ∀ root : Path,
    fs'.fileAt (fs.place (root.join exportManifest)) = fs.fileAt (fs.place (root.join exportManifest))
  archived : ∀ r ∈ rs, (fs'.fileAt (fs.place r.archive)).isSome

namespace Left

variable {fs mid fs' : FileSystem} {r : PackageResult} {rs : List PackageResult}

theorem nil (fs : FileSystem) : Left fs fs [] := ⟨.refl fs, fun _ => rfl, by simp⟩

theorem cons (h : Left fs mid [r]) (hrest : Left mid fs' rs) : Left fs fs' (r :: rs) := by
  have hplace := h.extends_files.place_eq
  refine ⟨h.extends_files.trans hrest.extends_files, fun root => ?_, ?_⟩
  · rw [← h.manifest_eq root, ← hplace]
    exact hrest.manifest_eq root
  · intro r' hr'
    rcases List.mem_cons.1 hr' with rfl | hr'
    · exact hrest.extends_files.file _ (h.archived r' (by simp))
    · rw [← hplace]
      exact hrest.archived r' hr'

/-- A tree whose path leads to it has the manifest that it had. -/
theorem manifestOf_eq (h : Left fs fs' rs) (hw : fs.WellFormed) {root : Path} (hl : fs.Leads root) :
    Legal.manifestOf fs' root = Legal.manifestOf fs root := by
  have hclean := clean_manifests.1
  have hfile : fs'.isFile (root.join exportManifest) = fs.isFile (root.join exportManifest) := by
    rw [Bool.eq_iff_iff, hclean.isFile_iff (h.extends_files.wellFormed hw), hclean.isFile_iff hw,
      ← place_inBundle hclean.inBundle, ← place_inBundle hclean.inBundle, h.extends_files.place_eq,
      h.manifest_eq root]
    exact and_congr_left fun _ => iff_of_true (h.extends_files.leads hl) hl
  have hread (hthere : fs.isFile (root.join exportManifest) = true) :
      fs'.readWithin maxDocumentBytes (root.join exportManifest) =
        fs.readWithin maxDocumentBytes (root.join exportManifest) := by
    obtain ⟨c, hc⟩ := FileSystem.isFile_iff_stat.1 hthere
    obtain ⟨hne, hleads, hbytes⟩ := FileSystem.stat_eq_file_iff.1 hc
    have hc' : fs'.stat (root.join exportManifest) = .ok (.file c) :=
      FileSystem.stat_eq_file_iff.2 ⟨hne, h.extends_files.leads hleads, by
        rw [h.extends_files.place_eq, h.manifest_eq root, hbytes]⟩
    simp only [FileSystem.readWithin, hc, hc']
  unfold Legal.manifestOf
  dsimp only
  rw [hfile]
  split
  · rfl
  · next hthere => rw [hread (by simpa using hthere)]

end Left

section
variable {fs fs' : FileSystem} {o : PackageOptions} {shared : Shared} {w w' : Workbench}

theorem left_of_packageOne (hreal : o.dryRun = false) {s : Source} {t : CheckedTarget} {r : PackageResult}
    (h : Runs (packageOne o shared s t) w r w') : Left w.files w'.files [r] := by
  obtain ⟨p, -, hw, -, harchive, -⟩ := written_of_packageOne hreal h
  refine ⟨hw.extends_files, fun root => ?_, ?_⟩
  · rw [hw.fileAt_eq]
    apply overlay_of_ne
    intro a ha
    obtain ⟨e, he, hpath⟩ := Parts.exists_ending ha
    rw [← hpath]
    exact place_ne_manifest p.stem he _ _ root
  · intro r' hr'
    rw [List.mem_singleton.1 hr', hw.fileAt_eq, harchive]
    refine overlay_isSome (fun a ha => ?_) (.inr ⟨(p.archiveName, .bytes p.archive), List.mem_cons_self, rfl⟩)
    simp only [Parts.artifacts, List.mem_cons, List.not_mem_nil, or_false] at ha
    rcases ha with rfl | rfl | rfl | rfl | rfl <;> rfl

/-- Jobs that end well read the manifests of their trees as they were before. -/
theorem left_of_runs (hreal : o.dryRun = false) (hwf : w.files.WellFormed) {jobs : List (Source × CheckedTarget)}
    (hleads : ∀ j ∈ jobs, w.files.Leads j.1.root) {rs : List PackageResult}
    (h : Runs (jobs.mapM fun j => packageOne o shared j.1 j.2) w rs w') :
    Left w.files w'.files rs ∧ ∀ j ∈ jobs, Legible w.files j.1 := by
  induction jobs generalizing w rs with
  | nil =>
    obtain ⟨rfl, rfl⟩ := Runs.mapM_nil_iff.1 h
    exact ⟨.nil w.files, by simp⟩
  | cons j jobs ih =>
    obtain ⟨r, w₁, rs₁, hone, hrest, rfl⟩ := Runs.mapM_cons_iff.1 h
    obtain ⟨p, hbuild, -⟩ := written_of_packageOne hreal hone
    have hfirst := left_of_packageOne hreal hone
    have hleads' : ∀ i ∈ jobs, w₁.files.Leads i.1.root := fun i hi =>
      hfirst.extends_files.leads (hleads i (by simp [hi]))
    obtain ⟨hlater, hmanifests⟩ := ih (hfirst.extends_files.wellFormed hwf) hleads' hrest
    refine ⟨hfirst.cons hlater, fun i hi => ?_⟩
    rcases List.mem_cons.1 hi with rfl | hi
    · exact legible_of_build hbuild
    · unfold Legible
      rw [← hfirst.manifestOf_eq hwf (hleads i (by simp [hi]))]
      exact hmanifests i hi

theorem leads_of_game {root : Path} (h : fs.isDirectory (root.join gameDir) = true) : fs.Leads root :=
  (FileSystem.leads_of_join (by decide) (FileSystem.leads_of_locate (FileSystem.isDirectory_iff.1 h).1)).1

/-- A packager has found the game of each tree; the bundle comes first, and all others are forks. -/
theorem leads_of_sources {ss : List Source} (h : sources fs o = .ok ss) :
    (∀ s ∈ ss, fs.Leads s.root) ∧ ∃ main forks, ss = main :: forks ∧
      ∀ s ∈ forks, s.fork.isSome = true ∧ o.forks = true := by
  unfold sources at h
  dsimp only at h
  split at h
  · cases h
  · next hgame =>
    have hmain := leads_of_game (by simpa using hgame)
    split at h
    · next hforks =>
      obtain ⟨ds, -, h⟩ := bind_eq_ok.1 h
      obtain ⟨forks, hmap, h⟩ := bind_eq_ok.1 h
      obtain rfl := pure_eq_ok.1 h
      have hfork : ∀ s ∈ forks, fs.Leads s.root ∧ s.fork.isSome = true := by
        intro s hs
        obtain ⟨d, -, hd⟩ := exists_of_mem_mapM hmap hs
        unfold forkSource at hd
        split at hd
        · cases hd
        · dsimp only at hd
          split at hd
          · next hdir =>
            obtain rfl := Except.ok.inj hd
            exact ⟨leads_of_game hdir, rfl⟩
          · cases hd
      refine ⟨fun s hs => ?_, _, forks, rfl, fun s hs => ⟨(hfork s hs).2, hforks⟩⟩
      rcases List.mem_cons.1 hs with rfl | hs
      · exact hmain
      · exact (hfork s hs).1
    · obtain rfl := Except.ok.inj h
      refine ⟨fun s hs => ?_, _, [], rfl, by simp⟩
      rw [List.mem_singleton.1 hs]
      exact hmain

end

/-- The jobs of trees, one for each target. -/
theorem split_jobs {α β : Type} {P : α → Prop} {xs : List α} {ts : List β} {before after : List (α × β)} {x : α}
    {t : β} (h : (xs.flatMap fun y => ts.map fun u => (y, u)) = before ++ (x, t) :: after)
    (hbefore : ∀ j ∈ before, P j.1) (hx : ¬P x) :
    ∃ done rest, xs = done ++ x :: rest ∧ before = done.flatMap fun y => ts.map fun u => (y, u) := by
  induction xs generalizing before with
  | nil => simp at h
  | cons y xs ih =>
    rw [List.flatMap_cons] at h
    rcases List.append_eq_append_iff.1 h with ⟨later, hfull, hlater⟩ | ⟨here, hblock, hlater⟩
    · subst hfull
      obtain ⟨done, rest, rfl, rfl⟩ := ih hlater fun j hj => hbefore j (by simp [hj])
      exact ⟨y :: done, rest, rfl, by rw [List.flatMap_cons]⟩
    · cases here with
      | nil =>
        obtain ⟨done, rest, rfl, hdone⟩ := ih (show _ = [] ++ _ from hlater.symm) (by simp)
        refine ⟨y :: done, rest, rfl, ?_⟩
        rw [List.append_nil] at hblock
        rw [List.flatMap_cons, ← hdone, List.append_nil, hblock]
      | cons j here =>
        -- The failing job is one of those of the first tree, and so are those before it.
        obtain ⟨rfl, -⟩ := List.cons.inj hlater
        have hfst : ∀ i ∈ before ++ (x, t) :: here, i.1 = y := by
          rw [← hblock]
          intro i hi
          obtain ⟨u, -, rfl⟩ := List.mem_map.1 hi
          rfl
        obtain rfl : x = y := hfst (x, t) (by simp)
        have hnone : before = [] := by
          apply List.eq_nil_iff_forall_not_mem.2
          intro i hi
          exact hx (hfst i (by simp [hi]) ▸ hbefore i hi)
        exact ⟨[], xs, rfl, hnone⟩

/-! ## Whole runs -/

/-- A run that is refused late: it has packaged some trees for all targets when it meets a fork whose manifest is a
file that is no JSON. -/
structure RefusedAfter (fs fs' : FileSystem) (o : PackageOptions) (e : Failure) (done : List Source) (s : Source)
    (rs : List PackageResult) : Prop where
  real : o.dryRun = false
  sources_eq : ∃ rest, sources fs o = .ok (done ++ s :: rest)
  done_ne : done ≠ []
  fork : s.fork.isSome = true ∧ o.forks = true
  legible : ∀ d ∈ done, Legible fs d
  illegible : ∃ bytes c, fs.readWithin maxDocumentBytes (s.root.join exportManifest) = .ok bytes ∧
    Json.parseBytes Json.Tree.value bytes = .error c ∧
    e = .packaging ("unreadable " ++ (s.root.join exportManifest).text ++ ": " ++ Failure.categoryText c)
  keys_eq : rs.map (·.key) = done.map (·.fork) ×ˢ o.targets.map (·.name)
  archived : ∀ r ∈ rs, (fs'.fileAt (fs.place r.archive)).isSome = true

variable {fs fs' : FileSystem} {o : PackageOptions} {e : Failure}

theorem run_eq_error_iff : run fs o = (.error e, fs') ↔
    (plan fs o = .error e ∧ fs' = fs) ∨ ∃ p w, plan fs o = .ok p ∧ fs' = w.files ∧
      outcome ((p.sources.flatMap fun s => p.targets.map fun t => (s, t)).mapM fun j =>
        packageOne o p.shared j.1 j.2) ⟨fs, { root := o.dist, dryRun := o.dryRun }⟩ = (.error e, w) := by
  unfold run outcome
  cases plan fs o with
  | error e₀ => simp [eq_comm]
  | ok p =>
    dsimp only
    constructor
    · intro h
      obtain ⟨hresult, hfiles⟩ := Prod.mk.inj h
      exact .inr ⟨p, _, rfl, hfiles.symm, Prod.ext hresult rfl⟩
    · rintro (⟨h, -⟩ | ⟨p', w, hp, rfl, h⟩)
      · cases h
      · obtain rfl := Except.ok.inj hp
        rw [h]

theorem refusedAfter_of_run (hw : fs.WellFormed) (h : run fs o = (.error e, fs')) (he : e.Refuses) :
    fs' = fs ∨ ∃ done s rs, RefusedAfter fs fs' o e done s rs := by
  by_cases hdry : o.dryRun = true
  · left
    have hsame : (run fs o).2 = fs := files_of_dry_package hdry
    rw [h] at hsame
    exact hsame
  have hreal : o.dryRun = false := Bool.eq_false_iff.2 hdry
  rcases run_eq_error_iff.1 h with ⟨-, hsame⟩ | ⟨p, w, hp, rfl, hjobs⟩
  · exact .inl hsame
  obtain ⟨htargets, hsources⟩ := plan_eq_ok hp
  obtain ⟨hleads, main, forks, hmain, hforks⟩ := leads_of_sources hsources
  obtain ⟨before, ⟨s, t⟩, after, rs, w₁, hsplit, hbefore, hfail⟩ := outcome_mapM_error hjobs
  obtain ⟨hrefused, hfiles⟩ := refused_of_packageOne hfail he
  have hroots : ∀ j ∈ before ++ (s, t) :: after, fs.Leads j.1.root := by
    rw [← hsplit]
    exact fun j hj => hleads j.1 (mem_jobs.1 hj).1
  obtain ⟨hleft, hlegible⟩ := left_of_runs hreal hw (fun j hj => hroots j (by simp [hj])) hbefore
  rw [hleft.manifestOf_eq hw (hroots (s, t) (by simp))] at hrefused
  have hillegible : ¬Legible fs s := by
    rintro ⟨m, hm⟩
    cases hrefused.symm.trans hm
  obtain ⟨done, rest, hdone, hbefore'⟩ := split_jobs hsplit hlegible hillegible
  by_cases hnone : done = []
  · left
    rw [hbefore', hnone, List.flatMap_nil] at hbefore
    obtain ⟨-, rfl⟩ := Runs.mapM_nil_iff.1 hbefore
    exact hfiles
  right
  refine ⟨done, s, rs, hreal, ⟨rest, hdone ▸ hsources⟩, hnone, ?_, ?_, (manifestOf_refuses_iff.1 ⟨hrefused, he⟩).2, ?_, ?_⟩
  · cases done with
    | nil => exact absurd rfl hnone
    | cons d ds =>
      obtain ⟨-, rfl⟩ := List.cons.inj (hmain.symm.trans hdone)
      exact hforks s (by simp)
  · intro d hd
    have hjob : (s, t) ∈ p.sources.flatMap fun s => p.targets.map fun t => (s, t) := by
      rw [hsplit]
      exact List.mem_append_right before List.mem_cons_self
    refine hlegible (d, t) ?_
    rw [hbefore']
    exact mem_jobs.2 ⟨hd, (mem_jobs.1 hjob).2⟩
  · rw [keys_of_runs hbefore, hbefore', ← names_of_checkTargets htargets]
    simp [SProd.sprod, List.product, List.map_flatMap, List.flatMap_map, Function.comp_def]
  · rw [hfiles]
    exact hleft.archived

/-- A run that is refused has written nothing, unless it was refused late. It is not if the manifests of all forks that
it finds are JSON. -/
theorem files_of_refusal (hw : fs.WellFormed) (h : run fs o = (.error e, fs')) (he : e.Refuses) :
    (fs' = fs ∨ ∃ done s rs, RefusedAfter fs fs' o e done s rs) ∧
    ((∀ ss, sources fs o = .ok ss → ∀ s ∈ ss, s.fork.isSome = true → Legible fs s) → fs' = fs) := by
  have hlate := refusedAfter_of_run hw h he
  refine ⟨hlate, fun hlegible => hlate.resolve_right ?_⟩
  rintro ⟨done, s, rs, hafter⟩
  obtain ⟨rest, hsources⟩ := hafter.sources_eq
  obtain ⟨m, hm⟩ := hlegible _ hsources s (by simp) hafter.fork.1
  obtain ⟨bytes, c, hread, hparse, -⟩ := hafter.illegible
  have hfile : fs.isFile (s.root.join exportManifest) = true := by
    obtain ⟨hl, hfile, -⟩ := FileSystem.readWithin_eq_ok hread
    exact FileSystem.isFile_iff.2 ⟨hl, by simp [hfile]⟩
  have hrefused := (manifestOf_refuses_iff.2 ⟨hfile, bytes, c, hread, hparse, rfl⟩).1
  cases hrefused.symm.trans hm

/-- A bundle with a fork for `b`, whose manifest is no JSON. -/
def brokenFiles : FileSystem where
  nodes := .ofList [(["out"], .directory), (["out", "game"], .directory), (["out", "forks"], .directory),
    (["out", "forks", "b"], .directory), (["out", "forks", "b", "game"], .directory),
    (["out", "forks", "b", "export_manifest.json"], .file (String.toUTF8 "-")),
    (["out", "export_manifest.json"], .file (String.toUTF8
      "\x7b\"pov\":\x7b\"forks\":[\x7b\"pov_id\":\"b\",\"slug\":\"b\",\"path\":\"forks/b\",\"script\":\"\",\"manifest\":\"\"\x7d]\x7d\x7d"))]

def brokenOptions : PackageOptions :=
  { slug := "p", title := "p", exportRoot := ⟨"out"⟩, dist := ⟨"d"⟩, targets := [⟨"web", ["web"]⟩] }

set_option maxRecDepth 100000 in
/-- The archive of the bundle is there when the manifest of the fork is refused. -/
theorem refused_after_archive :
    brokenFiles.WellFormed ∧ ∃ reason fs' done s rs, run brokenFiles brokenOptions = (.error (.packaging reason), fs') ∧
      fs'.isFile ⟨"d/p-web.zip"⟩ = true ∧ brokenFiles.isFile ⟨"d/p-web.zip"⟩ = false ∧
      RefusedAfter brokenFiles fs' brokenOptions (.packaging reason) done s rs := by
  have hw : brokenFiles.WellFormed := by decide +kernel
  have hbefore : brokenFiles.isFile ⟨"d/p-web.zip"⟩ = false := by decide +kernel
  have hrun : (match run brokenFiles brokenOptions with
      | (.error e, fs') => e.reason?.isSome && fs'.isFile ⟨"d/p-web.zip"⟩
      | (.ok _, _) => false) = true := by
    decide +kernel
  split at hrun
  · next e fs' h =>
    obtain ⟨hreason, hrun⟩ := Bool.and_eq_true_iff.1 hrun
    obtain ⟨reason, hreason⟩ := Option.isSome_iff_exists.1 hreason
    obtain rfl := Failure.reason?_eq_some.1 hreason
    have hlate := (files_of_refusal hw h (.inl ⟨reason, rfl⟩)).1
    have hchanged : fs' ≠ brokenFiles := by
      rintro rfl
      rw [hbefore] at hrun
      cases hrun
    obtain ⟨done, s, rs, hafter⟩ := hlate.resolve_left hchanged
    exact ⟨hw, reason, fs', done, s, rs, h, hrun, hbefore, hafter⟩
  · cases hrun

end Package

end StoryPress
