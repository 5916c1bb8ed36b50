import StoryPress.Command.Run
import StoryPress.Proofs.Delivered
import StoryPress.Proofs.Endings
import StoryPress.Proofs.Flags

/-!
# Commands that write nothing

A check is a dry run, and so are an export and a publication that are asked to be one. The exception is a
publication that exports first: the export before it is a forced one, whether the publication is a dry run or
not.

* `Command.result_bind`, `Command.Idle`: what steps of a command come to, and steps that leave the files;
* `Command.files_runPublish`: a dry publication leaves what the export before it leaves;
* `DryCommandLine`: the command lines that ask for a dry run;
* `Outcome.files_of_dry_command_line`: what they leave.
-/

namespace StoryPress

theorem PublishInvocation.dryRun_options (i : PublishInvocation) {s : Settings} {root : Path}
    {options : PackageOptions} (h : i.options s root = .ok options) : options.dryRun = i.dryRun := by
  unfold PublishInvocation.options at h
  dsimp only at h
  split at h
  · cases h
  · obtain rfl := Except.ok.inj h
    rfl

namespace Command

variable {α β : Type}

/-- What a step of a command comes to, and the console it leaves. -/
def result (x : Command α) (c : Console) : Except CommandError α × Console := x.run.run c

theorem result_bind (x : Command α) (f : α → Command β) (c : Console) :
    result (x >>= f) c =
      match result x c with
      | (.ok a, c₁) => result (f a) c₁
      | (.error e, c₁) => (.error e, c₁) := by
  unfold result
  simp only [ExceptT.run_bind, StateT.run_bind]
  change (match x.run.run c with | (r, c₁) => _) = _
  rcases x.run.run c with ⟨_ | _, c₁⟩ <;> rfl

/-- The step leaves the files as they are. -/
def Idle (x : Command α) : Prop := ∀ c, (result x c).2.files = c.files

namespace Idle

theorem pure (a : α) : Idle (Pure.pure a : Command α) := fun _ => rfl

theorem throw (e : CommandError) : Idle (MonadExcept.throw e : Command α) := fun _ => rfl

theorem print (text : String) : Idle (Command.print text) := fun _ => rfl

theorem perform {message : String} {f : FileSystem → Except Failure α × FileSystem} (hf : ∀ fs, (f fs).2 = fs) :
    Idle (Command.perform message f) := fun c => hf c.files

theorem bind {x : Command α} {f : α → Command β} (hx : Idle x) (hf : ∀ a, Idle (f a)) : Idle (x >>= f) := by
  intro c
  have hkept := hx c
  rw [result_bind]
  rcases hr : result x c with ⟨e | a, c₁⟩
  · rw [hr] at hkept
    exact hkept
  · rw [hr] at hkept
    exact (hf a c₁).trans hkept

end Idle

/-- Settings are read and a caution is printed; nothing is written. -/
theorem result_loadSettings (file : Path) (c : Console) :
    ∃ c', c'.files = c.files ∧ result (loadSettings file) c = (readSettings c.files file, c') := by
  unfold loadSettings
  rw [result_bind]
  change ∃ c' : Console, c'.files = c.files ∧ result (liftM (readSettings c.files file) >>= _) c = _
  rw [result_bind]
  cases readSettings c.files file with
  | error e => exact ⟨c, rfl, rfl⟩
  | ok s =>
    change ∃ c' : Console, c'.files = c.files ∧ result _ c = _
    split
    · exact ⟨{ c with warnings := c.warnings ++ _ }, rfl, rfl⟩
    · exact ⟨c, rfl, rfl⟩

/-- What a step has left, steps that leave the files keep. -/
theorem files_bind_idle {x : Command α} {f : α → Command β} (hf : ∀ a, Idle (f a)) (c : Console) :
    (result (x >>= f) c).2.files = (result x c).2.files := by
  rw [result_bind]
  rcases result x c with ⟨e | a, c₁⟩
  · rfl
  · exact hf a c₁

/-- The export of an invocation with its settings, where the pinned time is of use. -/
def exportOf? (clock : Clock) (s : Settings) (i : ExportInvocation) : Option (Store × ExportOptions) :=
  match clock.pinned with
  | .ok pinned => some (.directory (Settings.resolve i.manifest s.exporting.root), i.options s pinned)
  | .error _ => none

/-- What an export leaves; the given files if there is none. -/
def filesAfter (fs : FileSystem) (clock : Clock) : Option (Store × ExportOptions) → FileSystem
  | some (store, options) => (Export.run fs store options {} clock.now).2
  | none => fs

theorem files_exportBundle (clock : Clock) (s : Settings) (i : ExportInvocation) (message : String) (c : Console) :
    (result (exportBundle clock s i message) c).2.files = filesAfter c.files clock (exportOf? clock s i) := by
  unfold exportBundle exportOf?
  rw [result_bind]
  cases clock.pinned with
  | error e => rfl
  | ok pinned => rfl

theorem idle_exportBundle {clock : Clock} {s : Settings} {i : ExportInvocation} {message : String}
    (hd : i.dryRun = true) : Idle (exportBundle clock s i message) := by
  intro c
  rw [files_exportBundle]
  unfold exportOf?
  cases clock.pinned with
  | error e => rfl
  | ok pinned => exact Export.files_of_dry_run hd

theorem idle_loadSettings (file : Path) : Idle (loadSettings file) := by
  intro c
  obtain ⟨c', hfiles, hresult⟩ := result_loadSettings file c
  rw [hresult]
  exact hfiles

/-- A dry export leaves all files as they are. -/
theorem idle_runExport {clock : Clock} {i : ExportInvocation} (hd : i.dryRun = true) : Idle (runExport clock i) := by
  unfold runExport
  refine (idle_loadSettings _).bind fun s => (Idle.print _).bind fun _ => ?_
  refine (idle_exportBundle hd).bind fun r => (Idle.print _).bind fun _ => ?_
  split
  · exact Idle.print _
  · exact Idle.pure _

/-- So does a check. -/
theorem idle_runCheck (clock : Clock) (i : CheckInvocation) : Idle (runCheck clock i) := by
  unfold runCheck
  refine (idle_loadSettings _).bind fun s => (Idle.print _).bind fun _ => ?_
  refine (idle_exportBundle rfl).bind fun r => (Idle.print _).bind fun _ => (Idle.print _).bind fun _ => ?_
  dsimp only
  split
  · exact (Idle.throw _).bind fun _ => Idle.print _
  · exact Idle.print _

/-- The export that a publication makes before it packages, if there is one and its settings and the pinned time
are of use. -/
def firstExport? (fs : FileSystem) (clock : Clock) (i : PublishInvocation) : Option (Store × ExportOptions) :=
  if i.exportFirst then
    match readSettings fs i.manifest with
    | .ok s => exportOf? clock s (i.exportInvocation s)
    | .error _ => none
  else none

/-- What comes after the export of a dry publication. -/
theorem idle_package {i : PublishInvocation} (hd : i.dryRun = true) (s : Settings) :
    Idle (match i.options s (i.exportRoot s) with
      | .error problem => MonadExcept.throw ⟨problem, []⟩
      | .ok options => do
        let rs ← perform "Failed to package archives" fun fs => Package.run fs options
        Command.print (Report.archives options.dryRun rs)) := by
  split
  · exact Idle.throw _
  · next options hoptions =>
    have hdry : options.dryRun = true := (i.dryRun_options hoptions).trans hd
    exact (Idle.perform fun fs => Package.files_of_dry_package hdry).bind fun rs => Idle.print _

/-- A dry publication leaves what the export before it leaves. -/
theorem files_runPublish {clock : Clock} {i : PublishInvocation} (hd : i.dryRun = true) (c : Console) :
    (result (runPublish clock i) c).2.files = filesAfter c.files clock (firstExport? c.files clock i) := by
  unfold runPublish firstExport?
  obtain ⟨c', hfiles, hresult⟩ := result_loadSettings i.manifest c
  rw [result_bind, hresult]
  cases readSettings c.files i.manifest with
  | error e =>
    simpa [filesAfter] using hfiles
  | ok s =>
    dsimp only
    rw [result_bind]
    change (result _ { c' with output := _ }).2.files = _
    by_cases hfirst : i.exportFirst = true
    · rw [if_pos hfirst, if_pos hfirst, files_bind_idle, files_exportBundle]
      · rw [← hfiles]
      · intro r
        exact (Idle.print _).bind fun _ => idle_package hd s
    · rw [if_neg hfirst, if_neg hfirst]
      exact (idle_package hd s _).trans hfiles

end Command

/-! ## Command lines -/

theorem isFlag_dryRun_export : OptionSpec.IsFlag (helpOption :: ExportInvocation.specs) { name := "dry-run" } :=
  ⟨by decide, rfl, rfl, by decide, by decide, by decide⟩

theorem isFlag_dryRun_publish : OptionSpec.IsFlag (helpOption :: PublishInvocation.specs) { name := "dry-run" } :=
  ⟨by decide, rfl, rfl, by decide, by decide, by decide⟩

theorem isFlag_export_publish : OptionSpec.IsFlag (helpOption :: PublishInvocation.specs) { name := "export" } :=
  ⟨by decide, rfl, rfl, by decide, by decide, by decide⟩

theorem ExportInvocation.dryRun_iff {words : List String} {i : ExportInvocation} (h : parse words = .ok i) :
    i.dryRun = true ↔ "--dry-run" ∈ words := by
  obtain ⟨g, hread, rfl⟩ := map_eq_ok.1 h
  exact has_iff_of_readArguments isFlag_dryRun_export hread

theorem PublishInvocation.flags_iff {words : List String} {i : PublishInvocation} (h : parse words = .ok i) :
    (i.dryRun = true ↔ "--dry-run" ∈ words) ∧ (i.exportFirst = true ↔ "--export" ∈ words) := by
  obtain ⟨g, hread, rfl⟩ := map_eq_ok.1 h
  exact ⟨has_iff_of_readArguments isFlag_dryRun_publish hread, has_iff_of_readArguments isFlag_export_publish hread⟩

/-- The command lines that ask for a dry run: checks, and exports and publications with the flag. -/
inductive DryCommandLine : List String → Prop
  | check (words : List String) : DryCommandLine ("check" :: words)
  | export_ {words : List String} (h : "--dry-run" ∈ words) : DryCommandLine ("export" :: words)
  | publish {words : List String} (h : "--dry-run" ∈ words) : DryCommandLine ("publish" :: words)

namespace Outcome

variable {fs : FileSystem} {words : List String} {clock : Command.Clock}

/-- The export that a command line makes before it packages. -/
def firstExport? (fs : FileSystem) (clock : Command.Clock) (words : List String) : Option (Store × ExportOptions) :=
  match Invocation.parse words with
  | .ok (.publish i) => Command.firstExport? fs clock i
  | _ => none

theorem files_ofCommandLine {i : Invocation} (h : Invocation.parse words = .ok i) :
    (ofCommandLine fs words clock).files = (Command.result (Command.runInvocation clock i) { files := fs }).2.files := by
  unfold ofCommandLine Command.result
  rw [h]
  dsimp only
  split <;> next hrun => rw [hrun]

theorem files_of_stop {stop : Stop} (h : Invocation.parse words = .error stop) :
    (ofCommandLine fs words clock).files = fs := by
  unfold ofCommandLine
  rw [h]
  cases stop <;> rfl

theorem parse_eq_ok {α : Type} {parse : List String → Except Stop α} {make : α → Invocation} {i : Invocation}
    (h : make <$> parse words = .ok i) : ∃ a, parse words = .ok a ∧ i = make a := by
  cases ha : parse words with
  | error stop =>
    rw [ha] at h
    cases h
  | ok a =>
    rw [ha] at h
    exact ⟨a, rfl, (Except.ok.inj h).symm⟩

/-- Only its own word makes a command line a publication. -/
theorem words_of_publish {i : PublishInvocation} (h : Invocation.parse words = .ok (.publish i)) :
    ∃ rest, words = "publish" :: rest ∧ PublishInvocation.parse rest = .ok i := by
  cases words with
  | nil => cases h
  | cons w rest =>
    rw [Invocation.parse] at h
    split at h
    · obtain ⟨_, -, he⟩ := parse_eq_ok h
      cases he
    · split at h
      · next hw =>
        obtain ⟨j, hj, he⟩ := parse_eq_ok h
        obtain rfl := Invocation.publish.inj he
        exact ⟨rest, by rw [hw], hj⟩
      · split at h
        · obtain ⟨_, -, he⟩ := parse_eq_ok h
          cases he
        · -- help, the version, or no command
          repeat' split at h
          all_goals cases h

/-- A command line that asks for a dry run leaves what the export leaves that comes before its packaging. -/
theorem files_of_dry (hdry : DryCommandLine words) :
    (ofCommandLine fs words clock).files = Command.filesAfter fs clock (firstExport? fs clock words) := by
  unfold firstExport?
  cases hparse : Invocation.parse words with
  | error stop => exact files_of_stop hparse
  | ok i =>
    rw [files_ofCommandLine hparse]
    cases hdry with
    | check rest =>
      have hcheck : Invocation.check <$> CheckInvocation.parse rest = .ok i := by
        simpa [Invocation.parse] using hparse
      obtain ⟨j, -, rfl⟩ := parse_eq_ok hcheck
      exact Command.idle_runCheck clock j { files := fs }
    | export_ hflag =>
      obtain ⟨j, hj, rfl⟩ := parse_eq_ok (by simpa [Invocation.parse] using hparse)
      exact Command.idle_runExport ((ExportInvocation.dryRun_iff hj).2 hflag) { files := fs }
    | publish hflag =>
      obtain ⟨j, hj, rfl⟩ := parse_eq_ok (by simpa [Invocation.parse] using hparse)
      exact Command.files_runPublish ((PublishInvocation.flags_iff hj).1.2 hflag) { files := fs }

/-- The export before a packaging is asked for by a flag, and it is forced and real. -/
theorem forced_of_firstExport? {store : Store} {options : ExportOptions}
    (h : firstExport? fs clock words = some (store, options)) :
    (∃ rest, words = "publish" :: rest ∧ "--export" ∈ rest) ∧ options.force = true ∧ options.dryRun = false := by
  unfold firstExport? at h
  split at h
  · next i hparse =>
    unfold Command.firstExport? at h
    split at h
    · next hfirst =>
      split at h
      · next s hs =>
        unfold Command.exportOf? at h
        split at h
        · next pinned hpinned =>
          obtain ⟨-, rfl⟩ := Prod.mk.inj (Option.some.inj h)
          obtain ⟨rest, rfl, hrest⟩ := words_of_publish hparse
          exact ⟨⟨rest, rfl, (PublishInvocation.flags_iff hrest).2.1 hfirst⟩, rfl, rfl⟩
        · cases h
      · cases h
    · cases h
  · cases h

/-- A command line that asks for a dry run leaves every file and directory as it was, or else it is a publication
that exports first; then it leaves what a forced real export leaves, whose manifest is there if it ends well. -/
theorem files_of_dry_command_line (hdry : DryCommandLine words) :
    (firstExport? fs clock words = none → (ofCommandLine fs words clock).files = fs) ∧
      ∀ store options, firstExport? fs clock words = some (store, options) →
        (∃ rest, words = "publish" :: rest ∧ "--export" ∈ rest) ∧ options.force = true ∧ options.dryRun = false ∧
        (ofCommandLine fs words clock).files = (Export.run fs store options {} clock.now).2 ∧
        (fs.WellFormed → ∀ r, (Export.run fs store options {} clock.now).1 = .ok r →
          (ofCommandLine fs words clock).files.fileAt (fs.place (options.output.join Layout.exportManifest)) =
            some r.manifest.toUTF8) := by
  rw [files_of_dry hdry]
  refine ⟨fun hnone => by rw [hnone]; rfl, fun store options hfirst => ?_⟩
  obtain ⟨hasked, hforce, hreal⟩ := forced_of_firstExport? hfirst
  rw [hfirst]
  refine ⟨hasked, hforce, hreal, rfl, fun hw r hr => ?_⟩
  exact Preparation.manifest_of_run hw hreal (Prod.ext hr rfl)

/-- A project without scenes, which is published for one target. -/
def smallProject : FileSystem where
  nodes := .ofList [
    (["talewright.toml"], .file (String.toUTF8
      "[project]\nid = \"p\"\n[[publish.targets]]\nname = \"w\"\nplatforms = [\"win\"]\n")),
    (["projects"], .directory), (["projects", "p.json"], .file (String.toUTF8 "\x7b\"id\":\"p\"\x7d"))]

/-- Where its manifest is, once it is exported. -/
def smallManifest : Location := ["build", "export", "export_manifest.json"]

set_option maxRecDepth 100000 in
/-- A dry publication that exports first leaves a bundle where there was none. -/
theorem bundle_left_by_dry_publication :
    DryCommandLine ["publish", "--export", "--dry-run"] ∧ smallProject.fileAt smallManifest = none ∧
      ((ofCommandLine smallProject ["publish", "--export", "--dry-run"] ⟨none, default⟩).files.fileAt
        smallManifest).isSome := by
  have hdry : DryCommandLine ["publish", "--export", "--dry-run"] := .publish (by decide)
  have hw : smallProject.WellFormed := by decide +kernel
  have hexported : (match firstExport? smallProject ⟨none, default⟩ ["publish", "--export", "--dry-run"] with
      | some (store, options) => (Export.run smallProject store options {} default).1.isOk &&
        smallProject.place (options.output.join Layout.exportManifest) == smallManifest
      | none => false) = true := by
    decide +kernel
  refine ⟨hdry, by decide +kernel, ?_⟩
  split at hexported
  · next store options hfirst =>
    obtain ⟨hok, hplace⟩ := Bool.and_eq_true_iff.1 hexported
    obtain ⟨-, -, -, -, hmanifest⟩ := (files_of_dry_command_line hdry).2 store options hfirst
    cases hr : (Export.run smallProject store options {} default).1 with
    | error e =>
      rw [hr] at hok
      cases hok
    | ok r =>
      have hleft := hmanifest hw r hr
      rw [show smallProject.place _ = smallManifest from eq_of_beq hplace] at hleft
      rw [hleft]
      rfl
  · cases hexported

end Outcome

end StoryPress
