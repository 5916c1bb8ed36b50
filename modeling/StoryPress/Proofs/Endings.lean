import StoryPress.Proofs.Archives

/-!
# How work ends

`Runs` tells of work that ends well. Here is what holds however it ends: what is kept of the workbench, and
with which failures the work can end.

* `Keeps`: a property of the workbench is kept, and failures are of a given kind;
* `Sink.keeps_put_dry`, `Sink.keeps_prune_dry`: in a dry run the files stay as they are;
* `Sink.keeps_put_real`, `Sink.keeps_prune_real`: in a real run only the file system refuses;
* `Export.keeps_write`: what each artifact and each pruning keep, the whole export keeps;
* `Package.keeps_packageOne`: what each part of an archive keeps, making the archive keeps.
-/

namespace StoryPress

/-- The failures that an operation of the file system causes. -/
def Failure.OfSystem (e : Failure) : Prop := ∃ path fault, e = .io path fault

/-- The failures of taking in a file. -/
def Failure.OfReading (e : Failure) : Prop := ∃ context cause, e = .unreadableFile context cause

theorem FileSystem.ofReading_of_readWithin {fs : FileSystem} {limit : Nat} {p : Path} {e : Failure}
    (h : fs.readWithin limit p = .error e) : e.OfReading := by
  unfold readWithin at h
  split at h
  · exact ⟨_, _, (Except.error.inj h).symm⟩
  · exact ⟨_, _, (Except.error.inj h).symm⟩
  · split at h
    · exact ⟨_, _, (Except.error.inj h).symm⟩
    · cases h

/-- However the work ends, the workbench is as it should be if it was before, and a failure is one of `E`. -/
def Keeps {α : Type} (I : Workbench → Prop) (E : Failure → Prop) (x : Work α) : Prop :=
  ∀ w, I w → I (outcome x w).2 ∧ ∀ e, (outcome x w).1 = .error e → E e

namespace Keeps

variable {α β : Type} {I : Workbench → Prop} {E : Failure → Prop}

theorem pure (a : α) : Keeps I E (Pure.pure a : Work α) := fun _ hw => ⟨hw, fun _ he => by cases he⟩

theorem bind {x : Work α} {f : α → Work β} (hx : Keeps I E x) (hf : ∀ a, Keeps I E (f a)) :
    Keeps I E (x >>= f) := by
  intro w hw
  have hkept := hx w hw
  rw [Runs.outcome_bind]
  rcases hr : outcome x w with ⟨e | a, w₁⟩
  · rw [hr] at hkept
    exact ⟨hkept.1, fun e' he => hkept.2 e' (by rw [← Except.error.inj he])⟩
  · rw [hr] at hkept
    exact hf a w₁ hkept.1

/-- What is done with the workbench as it stands. -/
theorem get_bind {f : Workbench → Work β} (hf : ∀ s, I s → Keeps I E (f s)) : Keeps I E (get >>= f) := by
  intro w hw
  rw [Runs.outcome_bind]
  exact hf w hw w hw

theorem updating {f : Sink → Sink} (hf : ∀ w, I w → I { w with sink := f w.sink }) :
    Keeps I E (Sink.updating f) := fun w hw => ⟨hf w hw, fun _ he => by cases he⟩

theorem reading {f : FileSystem → Except Failure α} (hf : ∀ w, I w → ∀ e, f w.files = .error e → E e) :
    Keeps I E (Sink.reading f) := fun w hw => ⟨hw, hf w hw⟩

/-- What is done with the result of a function of the files. -/
theorem reading_bind {f : FileSystem → Except Failure α} {g : α → Work β}
    (hE : ∀ w, I w → ∀ e, f w.files = .error e → E e)
    (hg : ∀ w, I w → ∀ a, f w.files = .ok a → Keeps I E (g a)) : Keeps I E (Sink.reading f >>= g) := by
  intro w hw
  rw [Runs.outcome_bind, show outcome (Sink.reading f) w = (f w.files, w) from rfl]
  cases hr : f w.files with
  | error e => exact ⟨hw, fun e' he => hE w hw e' (by rw [hr, Except.error.inj he])⟩
  | ok a => exact hg w hw a hr w hw

theorem changing {p : Path} {f : FileSystem → Except IoFault FileSystem}
    (hf : ∀ w, I w → ∀ files, f w.files = .ok files → I { w with files := files })
    (hE : ∀ fault, E (.io p fault)) : Keeps I E (Sink.changing p f) := by
  intro w hw
  rw [Runs.outcome_changing]
  cases hfiles : f w.files with
  | error fault => exact ⟨hw, fun e he => Except.error.inj he ▸ hE fault⟩
  | ok files => exact ⟨hf w hw files hfiles, fun _ he => by cases he⟩

theorem mapM {f : α → Work β} {as : List α} (hf : ∀ a ∈ as, Keeps I E (f a)) : Keeps I E (as.mapM f) := by
  induction as with
  | nil =>
    rw [List.mapM_nil]
    exact Keeps.pure _
  | cons a as ih =>
    rw [List.mapM_cons]
    have hrest := ih fun b hb => hf b (by simp [hb])
    exact (hf a (by simp)).bind fun b => hrest.bind fun bs => Keeps.pure _

end Keeps

namespace Sink

section
variable {I : Workbench → Prop} {E : Failure → Prop} {path dir : String} {content : Content}
  (hsink : ∀ w, I w → ∀ s : Sink, s.root = w.sink.root → s.dryRun = w.sink.dryRun → I { w with sink := s })
include hsink

/-- What is kept by the steps of putting an artifact is kept by putting it. -/
theorem keeps_put
    (hchange : ∀ w, I w → w.sink.dryRun = true → ∀ fs e,
      changeFor fs path (w.sink.root.join path) content = .error e → E e)
    (hmake : ∀ w, I w → w.sink.dryRun = false → ∀ above, (w.sink.root.join path).parent? = some above →
      Keeps I E (changing above (·.makeDirectories above)))
    (hstore : ∀ w, I w → w.sink.dryRun = false → Keeps I E (store (w.sink.root.join path) content)) :
    Keeps I E (put path content) := by
  unfold put
  apply Keeps.get_bind
  intro w hw
  refine (Keeps.updating fun w hw => hsink w hw _ rfl rfl).bind fun _ => ?_
  dsimp only
  split
  · next hdry =>
    refine Keeps.bind (Keeps.reading fun _ _ e he => hchange w hw hdry _ e he) fun change => ?_
    exact (Keeps.updating fun w hw => hsink w hw _ rfl rfl).bind fun _ => Keeps.pure _
  next hdry =>
  have hreal : w.sink.dryRun = false := by simpa using hdry
  have hrest : Keeps I E (do
      store (w.sink.root.join path) content
      updating fun s => { s with written := s.written ++ [w.sink.root.join path] }
      return w.sink.root.join path) :=
    (hstore w hw hreal).bind fun _ =>
      (Keeps.updating fun w hw => hsink w hw _ rfl rfl).bind fun _ => Keeps.pure _
  split
  · next above habove => exact (hmake w hw hreal above habove).bind fun _ => hrest
  · exact hrest

/-- What is kept by the steps of pruning a directory is kept by pruning it. -/
theorem keeps_prune
    (hremove : ∀ w, I w → w.sink.dryRun = false → w.files.isDirectory (w.sink.root.join dir) = true →
      Keeps I E (removeAll ((stale w.files w.sink (w.sink.root.join dir)).map (·.2))))
    (hsweep : ∀ w, I w → w.sink.dryRun = false → Keeps I E (changing (w.sink.root.join dir) fun fs => do
      return fs.sweep (← fs.locate (w.sink.root.join dir)))) : Keeps I E (prune dir) := by
  unfold prune
  apply Keeps.get_bind
  intro w hw
  dsimp only
  split
  · exact Keeps.pure _
  next hdir =>
  simp only [Bool.not_eq_true', Bool.not_eq_false] at hdir
  split
  · exact (Keeps.updating fun w hw => hsink w hw _ rfl rfl).bind fun _ => Keeps.pure _
  next hdry =>
  have hreal : w.sink.dryRun = false := by simpa using hdry
  exact (hremove w hw hreal hdir).bind fun _ => (hsweep w hw hreal).bind fun _ => Keeps.pure _

end

/-! ## Dry runs -/

/-- The files are the given ones, and the sink does not touch them. -/
def Still (fs : FileSystem) (w : Workbench) : Prop := w.files = fs ∧ w.sink.dryRun = true

variable {fs : FileSystem} {path : String} {content : Content}

theorem ofReading_of_changeFor {target : Path} {e : Failure} (h : changeFor fs path target content = .error e) :
    e.OfReading := by
  have hhash {after : String} (h : Change.ofHash fs path target after = .error e) : e.OfReading := by
    unfold Change.ofHash at h
    split at h
    · cases h
    · rcases bind_eq_error.1 h with h | ⟨bytes, -, h⟩
      · exact FileSystem.ofReading_of_readWithin h
      · dsimp only at h
        split at h <;> cases h
  cases content with
  | text s =>
    simp only [changeFor] at h
    unfold Change.ofText at h
    split at h
    · cases h
    · rcases bind_eq_error.1 h with h | ⟨bytes, -, h⟩
      · exact FileSystem.ofReading_of_readWithin h
      · split at h <;> cases h
  | bytes b => exact hhash h
  | copyOf source =>
    rcases bind_eq_error.1 h with h | ⟨bytes, -, h⟩
    · exact FileSystem.ofReading_of_readWithin h
    · exact hhash h

/-- A still sink never writes. -/
theorem Still.not_real {α : Prop} {w : Workbench} (hw : Still fs w) (hreal : w.sink.dryRun = false) : α := by
  cases hw.2.symm.trans hreal

/-- Putting an artifact in a dry run touches nothing, and fails only if a file cannot be taken in. -/
theorem keeps_put_dry : Keeps (Still fs) Failure.OfReading (put path content) :=
  keeps_put (fun _ hw _ _ hd => ⟨hw.1, hd.trans hw.2⟩) (fun _ _ _ _ _ he => ofReading_of_changeFor he)
    (fun _ hw hreal => hw.not_real hreal) fun _ hw hreal => hw.not_real hreal

theorem keeps_prune_dry {dir : String} : Keeps (Still fs) Failure.OfReading (prune dir) :=
  keeps_prune (fun _ hw _ _ hd => ⟨hw.1, hd.trans hw.2⟩) (fun _ hw hreal => hw.not_real hreal)
    fun _ hw hreal => hw.not_real hreal

/-! ## Real runs -/

/-- The sink writes. -/
def Live (w : Workbench) : Prop := w.sink.dryRun = false

theorem keeps_changing_real {p : Path} {f : FileSystem → Except IoFault FileSystem} :
    Keeps Live Failure.OfSystem (changing p f) :=
  Keeps.changing (fun _ hw _ _ => hw) fun fault => ⟨p, fault, rfl⟩

theorem keeps_store {target : Path} : Keeps Live Failure.OfSystem (store target content) := by
  unfold store
  split <;> exact keeps_changing_real

/-- Putting an artifact in a real run fails only if the file system refuses. -/
theorem keeps_put_real : Keeps Live Failure.OfSystem (put path content) := by
  refine keeps_put (fun _ hw _ _ hd => hd.trans hw) ?_ (fun _ _ _ _ _ => keeps_changing_real) fun _ _ _ => keeps_store
  intro w hw hdry
  cases hdry.symm.trans hw

theorem keeps_removeAll {ps : List Path} : Keeps Live Failure.OfSystem (removeAll ps) := by
  induction ps with
  | nil => exact Keeps.pure _
  | cons p ps ih => exact keeps_changing_real.bind fun _ => ih

theorem keeps_prune_real {dir : String} : Keeps Live Failure.OfSystem (prune dir) :=
  keeps_prune (fun _ hw _ _ hd => hd.trans hw) (fun _ _ _ _ => keeps_removeAll) fun _ _ _ => keeps_changing_real

end Sink

namespace Export

/-! ## Whole exports -/

variable {I : Workbench → Prop} {E : Failure → Prop} {p : Preparation} {options : ExportOptions}
  {now : Timestamp}

theorem keeps_putAll {as : List Preparation.Artifact} (hput : ∀ a ∈ as, Keeps I E (Sink.put a.1 a.2)) :
    Keeps I E (putAll as) := by
  induction as with
  | nil => exact Keeps.pure _
  | cons a as ih => exact (hput a (by simp)).bind fun _ => ih fun b hb => hput b (by simp [hb])

/-- The earlier manifest is looked at and never in the way. -/
theorem keeps_putManifest {dir : String} {m : ExportManifest}
    (hput : ∀ text, ∀ a ∈ p.manifestFiles dir text, Keeps I E (Sink.put a.1 a.2)) :
    Keeps I E (putManifest p options now dir m) := by
  refine Keeps.bind (Keeps.reading fun _ _ e he => by cases he) fun text => ?_
  exact (keeps_putAll (hput text)).bind fun _ => Keeps.pure _

theorem keeps_putForks {forks : List (Route × List CompiledScene × RenderedScript)}
    (hput : ∀ text, ∀ f ∈ forks, ∀ a ∈ p.forkFiles text f, Keeps I E (Sink.put a.1 a.2)) :
    Keeps I E (putForks p options now forks) := by
  induction forks with
  | nil => exact Keeps.pure _
  | cons f forks ih =>
    have hfork (text : String) := hput (fun _ _ => text) f (by simp)
    refine (keeps_putAll fun a ha => hfork "" a (List.mem_append_left _ ha)).bind fun _ => ?_
    refine (keeps_putManifest fun text a ha => hfork text a (List.mem_append_right _ ha)).bind fun _ => ?_
    exact ih fun text g hg => hput text g (by simp [hg])

theorem keeps_pruneAll {dirs : List String} (hprune : ∀ dir ∈ dirs, Keeps I E (Sink.prune dir)) :
    Keeps I E (pruneAll dirs) := by
  induction dirs with
  | nil => exact Keeps.pure _
  | cons dir dirs ih => exact (hprune dir (by simp)).bind fun _ => ih fun d hd => hprune d (by simp [hd])

/-- What putting each artifact and pruning each directory keep, a whole export keeps. -/
theorem keeps_write (hput : ∀ text, ∀ a ∈ p.files text, Keeps I E (Sink.put a.1 a.2))
    (hprune : ∀ dir ∈ Layout.generated, Keeps I E (Sink.prune dir)) : Keeps I E (write p options now) := by
  have hfiles (text : String → ExportManifest → String) {as : List Preparation.Artifact}
      (hsub : as ⊆ p.files text) : ∀ a ∈ as, Keeps I E (Sink.put a.1 a.2) := fun a ha => hput text a (hsub ha)
  have hgame : p.gameTree "" p.master ⊆ p.files fun _ _ => "" := by
    intro a ha
    simp only [Preparation.files, List.mem_append]
    exact .inl (.inl (.inl ha))
  have hlabels : [(Layout.labelManifest, Content.text p.labelManifest.pretty)] ⊆ p.files fun _ _ => "" := by
    simp [Preparation.files]
  have hmanifest (text : String) : p.manifestFiles "" text ⊆ p.files fun _ _ => text := by
    intro a ha
    simp only [Preparation.files, List.mem_append]
    exact .inr ha
  refine (keeps_putAll (hfiles _ hgame)).bind fun _ => Keeps.bind ?_ fun _ => ?_
  · refine keeps_putForks fun text f hf => hfiles text fun a ha => ?_
    simp only [Preparation.files, List.mem_append, List.mem_flatMap]
    exact .inl (.inl (.inr ⟨f, hf, ha⟩))
  refine (keeps_putAll (hfiles _ hlabels)).bind fun _ => ?_
  refine (keeps_putManifest fun text => hfiles _ (hmanifest text)).bind fun text => ?_
  exact (keeps_pruneAll hprune).bind fun _ => Keeps.pure _

/-- The files, and the sink of an export, when it starts to write. -/
def bench (fs : FileSystem) (options : ExportOptions) : Workbench :=
  ⟨fs, { root := options.output, dryRun := options.dryRun }⟩

variable {fs fs' : FileSystem} {store : Store} {reviewers : Reviewers BundleView} {e : Failure}

theorem files_of_run (h : Preparation.run fs store options reviewers = .ok p) :
    (run fs store options reviewers now).2 = (outcome (write p options now) (bench fs options)).2.files := by
  unfold run outcome bench
  rw [h]
  dsimp only
  split <;> next hw => rw [hw]

theorem run_eq_error_iff : run fs store options reviewers now = (.error e, fs') ↔
    (Preparation.run fs store options reviewers = .error e ∧ fs' = fs) ∨
      ∃ p w, Preparation.run fs store options reviewers = .ok p ∧ fs' = w.files ∧
        outcome (write p options now) (bench fs options) = (.error e, w) := by
  unfold run outcome bench
  cases Preparation.run fs store options reviewers with
  | error e₀ => simp [eq_comm]
  | ok p =>
    dsimp only
    split
    · next e₀ w hw => simp [hw, eq_comm, and_comm]
    · next text w hw => simp [hw]

/-- A dry run leaves every file and directory as it was, however it ends. -/
theorem files_of_dry_run (hd : options.dryRun = true) : (run fs store options reviewers now).2 = fs := by
  cases h : Preparation.run fs store options reviewers with
  | error e =>
    unfold run
    rw [h]
  | ok p =>
    have hkeeps : Keeps (Sink.Still fs) Failure.OfReading (write p options now) :=
      keeps_write (fun _ _ _ => Sink.keeps_put_dry) fun _ _ => Sink.keeps_prune_dry
    rw [files_of_run h]
    exact (hkeeps (bench fs options) ⟨rfl, hd⟩).1.1

/-- A real run that has begun to write fails only if the file system refuses. -/
theorem ofSystem_of_write {w : Workbench} (hd : options.dryRun = false)
    (h : outcome (write p options now) (bench fs options) = (.error e, w)) : e.OfSystem := by
  have hkeeps : Keeps Sink.Live Failure.OfSystem (write p options now) :=
    keeps_write (fun _ _ _ => Sink.keeps_put_real) fun _ _ => Sink.keeps_prune_real
  exact (hkeeps (bench fs options) hd).2 e (by rw [h])

end Export

namespace Package

/-! ## Whole packages -/

variable {fs : FileSystem} {options : PackageOptions} {shared : Shared} {s : Source} {t : CheckedTarget}

/-- What putting each part of an archive keeps, making the archive keeps. -/
theorem keeps_packageOne {I : Workbench → Prop} {E : Failure → Prop}
    (hstart : ∀ w, I w → I { w with sink := { root := options.dist, dryRun := options.dryRun } })
    (hbuild : ∀ w, I w → ∀ e, build w.files options shared s t = .error e → E e)
    (hput : ∀ w, I w → ∀ p, build w.files options shared s t = .ok p → ∀ a ∈ p.artifacts,
      Keeps I E (Sink.put a.1 a.2)) : Keeps I E (packageOne options shared s t) := by
  unfold packageOne
  refine (Keeps.updating hstart).bind fun _ => Keeps.reading_bind hbuild fun w hw p hp => ?_
  have hparts := hput w hw p hp
  simp only [Parts.artifacts, List.forall_mem_cons] at hparts
  obtain ⟨harchive, hmanifest, hlicenses, hfirst, hsecond, -⟩ := hparts
  have hstamps : Keeps I E (putStamps p) := hfirst.bind fun _ => hsecond.bind fun _ => Keeps.pure _
  refine harchive.bind fun _ => hmanifest.bind fun _ => hlicenses.bind fun _ => ?_
  split
  · exact (Keeps.pure _).bind fun _ => Keeps.get_bind fun _ _ => Keeps.pure _
  · exact hstamps.bind fun _ => Keeps.get_bind fun _ _ => Keeps.pure _

theorem keeps_packageOne_dry (hd : options.dryRun = true) :
    Keeps (Sink.Still fs) (fun _ => True) (packageOne options shared s t) := by
  refine keeps_packageOne (fun w hw => ⟨hw.1, hd⟩) (fun _ _ _ _ => trivial) fun _ _ p _ a _ => ?_
  exact fun w hw => ⟨(Sink.keeps_put_dry w hw).1, fun _ _ => trivial⟩

/-- What a run makes, once it is planned: an archive of each tree for each target. -/
def work (options : PackageOptions) (p : Plan) : Work (List PackageResult) :=
  (p.sources.flatMap fun s => p.targets.map fun t => (s, t)).mapM fun j => packageOne options p.shared j.1 j.2

theorem files_of_plan {p : Plan} (h : plan fs options = .ok p) :
    (run fs options).2 =
      (outcome (work options p) ⟨fs, { root := options.dist, dryRun := options.dryRun }⟩).2.files := by
  unfold run
  rw [h]
  rfl

/-- A dry run leaves every file and directory as it was, however it ends. -/
theorem files_of_dry_package (hd : options.dryRun = true) : (run fs options).2 = fs := by
  cases hp : plan fs options with
  | error e =>
    unfold run
    rw [hp]
  | ok p =>
    have hwork : Keeps (Sink.Still fs) (fun _ => True) (work options p) :=
      Keeps.mapM fun _ _ => keeps_packageOne_dry hd
    rw [files_of_plan hp]
    exact (hwork ⟨fs, { root := options.dist, dryRun := options.dryRun }⟩ ⟨rfl, hd⟩).1.1

end Package

end StoryPress
