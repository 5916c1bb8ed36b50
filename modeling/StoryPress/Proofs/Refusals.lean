import StoryPress.Proofs.Endings
import StoryPress.Proofs.Placements

/-!
# Refused exports

Everything that can refuse an export is asked before the first write.

* `Store.Missing`, `Store.Malformed`: the store does not give a document;
* `Collected.Needs`: the documents without which an export does not go on;
* `Export.Refused`: the causes of a refusal;
* `Export.refusal_touches_nothing`: a refusal, and every failure that the file system does not cause, leaves
  the files as they were.
-/

namespace StoryPress

/-- The bytes are a document of this kind. -/
def DocumentKind.Accepts (bytes : ByteArray) : DocumentKind → Prop
  | .project => ∃ d, Json.parseBytes Project.read bytes = .ok d
  | .timeline => ∃ d, Json.parseBytes Timeline.read bytes = .ok d
  | .scene => ∃ d, Json.parseBytes Scene.read bytes = .ok d
  | .world => ∃ d, Json.parseBytes World.read bytes = .ok d

/-- Whether there is a document of this kind with this id. -/
def Shelf.holds (s : Shelf) (id : String) : DocumentKind → Bool
  | .project => (s.projects.get? id).isSome
  | .timeline => (s.timelines.get? id).isSome
  | .scene => (s.scenes.get? id).isSome
  | .world => (s.worlds.get? id).isSome

namespace Store

variable {fs : FileSystem} {kind : DocumentKind} {id : String}

/-- There is no document of this kind with this id. -/
def Missing (fs : FileSystem) (kind : DocumentKind) (id : String) : Store → Prop
  | directory root => ∀ p, documentPath? root kind id = some p → fs.isFile p = false
  | memory shelf => shelf.holds id kind = false

/-- There is a file for the document, and what it holds is no document of this kind. -/
def Malformed (fs : FileSystem) (kind : DocumentKind) (id : String) : Store → Prop
  | directory root =>
    ∃ p bytes, documentPath? root kind id = some p ∧ fs.read p = .ok bytes ∧ ¬kind.Accepts bytes
  | memory _ => False

/-- The document is read. -/
def Gives (fs : FileSystem) (id : String) (store : Store) : DocumentKind → Prop
  | .project => ∃ d, store.project fs id = .ok d
  | .timeline => ∃ d, store.timeline fs id = .ok d
  | .scene => ∃ d, store.scene fs id = .ok d
  | .world => ∃ d, store.world fs id = .ok d

theorem load_eq_ok {α : Type} {root : Path} {read : Json.Tree → Json.Reading α} {x : α × Path}
    (h : load fs root kind id read = .ok x) :
    documentPath? root kind id = some x.2 ∧ fs.isFile x.2 = true ∧
      ∃ bytes, fs.readWithin maxDocumentBytes x.2 = .ok bytes ∧ Json.parseBytes read bytes = .ok x.1 := by
  unfold load at h
  split at h
  · cases h
  · next p hp =>
    obtain ⟨hpath, hfile⟩ := Option.filter_eq_some_iff.1 hp
    obtain ⟨bytes, hbytes, h⟩ := bind_eq_ok.1 h
    split at h
    · next d hd =>
      obtain rfl := pure_eq_ok.1 h
      exact ⟨hpath, hfile, bytes, hbytes, hd⟩
    · cases h

/-- A document that is made of what its file holds has a file, and bytes that are read. -/
theorem read_of_made {α β : Type} {root : Path} {read : Json.Tree → Json.Reading α} {make : α × Path → β}
    (h : ∃ d, (load fs root kind id read >>= fun x => pure (make x)) = .ok d) :
    ∃ p bytes, documentPath? root kind id = some p ∧ fs.isFile p = true ∧
      fs.readWithin maxDocumentBytes p = .ok bytes ∧ ∃ d, Json.parseBytes read bytes = .ok d := by
  obtain ⟨d, hd⟩ := h
  obtain ⟨x, hx, -⟩ := bind_eq_ok.1 hd
  obtain ⟨hpath, hfile, bytes, hbytes, hread⟩ := load_eq_ok hx
  exact ⟨x.2, bytes, hpath, hfile, hbytes, x.1, hread⟩

/-- What is given is in a file whose bytes are accepted. -/
theorem accepted_of_gives {root : Path} (h : (directory root).Gives fs id kind) :
    ∃ p bytes, documentPath? root kind id = some p ∧ fs.isFile p = true ∧
      fs.readWithin maxDocumentBytes p = .ok bytes ∧ kind.Accepts bytes := by
  cases kind with
  | project => exact read_of_made h
  | timeline => exact read_of_made h
  | scene => exact read_of_made h
  | world => exact read_of_made h

theorem holds_of_gives {shelf : Shelf} (h : (memory shelf).Gives fs id kind) : shelf.holds id kind = true := by
  cases kind with
  | project =>
    obtain ⟨d, hd⟩ := h
    refine Option.isSome_iff_ne_none.2 fun hnone => ?_
    rw [project, hnone] at hd
    cases hd
  | timeline =>
    obtain ⟨d, hd⟩ := h
    refine Option.isSome_iff_ne_none.2 fun hnone => ?_
    rw [timeline, hnone] at hd
    cases hd
  | scene =>
    obtain ⟨d, hd⟩ := h
    refine Option.isSome_iff_ne_none.2 fun hnone => ?_
    rw [scene, hnone] at hd
    cases hd
  | world =>
    obtain ⟨d, hd⟩ := h
    refine Option.isSome_iff_ne_none.2 fun hnone => ?_
    rw [world, hnone] at hd
    cases hd

theorem not_missing_of_gives {store : Store} (h : store.Gives fs id kind) : ¬store.Missing fs kind id := by
  intro hm
  cases store with
  | directory root =>
    obtain ⟨p, bytes, hpath, hfile, -, -⟩ := accepted_of_gives h
    rw [hm p hpath] at hfile
    cases hfile
  | memory shelf =>
    have hheld := holds_of_gives h
    rw [show shelf.holds id kind = false from hm] at hheld
    cases hheld

theorem not_malformed_of_gives {store : Store} (h : store.Gives fs id kind) : ¬store.Malformed fs kind id := by
  intro hm
  cases store with
  | directory root =>
    obtain ⟨p, bytes, hpath, -, hbytes, haccepts⟩ := accepted_of_gives h
    obtain ⟨q, others, hpath', hothers, hrefused⟩ := hm
    obtain rfl : p = q := Option.some.inj (hpath.symm.trans hpath')
    obtain rfl : bytes = others := by
      obtain ⟨-, hfile, -⟩ := FileSystem.readWithin_eq_ok hbytes
      obtain ⟨-, -, hfile'⟩ := FileSystem.read_eq_ok_iff.1 hothers
      exact Option.some.inj (hfile.symm.trans hfile')
    exact hrefused haccepts
  | memory shelf => exact hm

end Store

namespace Collected

variable {fs : FileSystem} {store : Store} {options : ExportOptions}

/-- The timeline that is chosen: by the options, or else by the world that is chosen. -/
inductive Chooses (fs : FileSystem) (store : Store) (options : ExportOptions) : String → Prop
  | named {id : String} (h : options.timeline = some id) : Chooses fs store options id
  | ofWorld {id worldId : String} {w : World} (hnone : options.timeline = none)
      (hworld : options.world = some worldId) (hw : store.world fs worldId = .ok w) (h : w.timeline = some id) :
      Chooses fs store options id

/-- The documents that an export needs: the project, the world and the timeline that are chosen, and the scenes
that the timeline places, or those of the project where no timeline is chosen. -/
inductive Needs (fs : FileSystem) (store : Store) (options : ExportOptions) : DocumentKind → String → Prop
  | project : Needs fs store options .project options.project
  | world {id : String} (h : options.world = some id) : Needs fs store options .world id
  | timeline {id : String} (h : Chooses fs store options id) : Needs fs store options .timeline id
  | placed {id : String} {t : Timeline} {placement : Placement} (h : Chooses fs store options id)
      (ht : store.timeline fs id = .ok t) (hp : placement ∈ t.order) :
      Needs fs store options .scene (Text.trim placement.scene)
  | listed {d : Project} {scene : String} (hnone : ∀ id, ¬Chooses fs store options id)
      (hd : store.project fs options.project = .ok d) (hs : scene ∈ d.scenes) :
      Needs fs store options .scene (Text.trim scene)

theorem chosen_eq_ok {α : Type} {load : String → Except Failure α} {id : String} {d : Option α}
    (h : chosen load (some id) = .ok d) : ∃ e, load id = .ok e ∧ d = some e := by
  simp only [chosen] at h
  cases he : load id with
  | error e =>
    rw [he] at h
    cases h
  | ok e =>
    rw [he] at h
    exact ⟨e, rfl, (Except.ok.inj h).symm⟩

theorem scene_of_loadScenes {ids : List String} {scenes : List Scene} (h : loadScenes fs store ids = .ok scenes)
    {id : String} (hid : id ∈ ids) : store.Gives fs id .scene := by
  induction ids generalizing scenes with
  | nil => cases hid
  | cons first ids ih =>
    obtain ⟨s, hs, h⟩ := bind_eq_ok.1 h
    obtain ⟨rest, hrest, -⟩ := bind_eq_ok.1 h
    rcases List.mem_cons.1 hid with rfl | hid
    · exact ⟨s, hs⟩
    · exact ih hrest hid

theorem chooses_iff {world : Option World} (hworld : chosen (store.world fs) options.world = .ok world)
    {id : String} : Chooses fs store options id ↔
      (options.timeline.orElse fun _ => world.bind (·.timeline)) = some id := by
  constructor
  · intro hc
    cases hc with
    | named h => simp [h]
    | ofWorld hnone hw hread h =>
      rw [hw] at hworld
      obtain ⟨w, hw', rfl⟩ := chosen_eq_ok hworld
      obtain rfl := Except.ok.inj (hw'.symm.trans hread)
      simp [hnone, h]
  · intro h
    cases hnamed : options.timeline with
    | some other =>
      simp only [hnamed, Option.orElse_some, Option.some.injEq] at h
      exact .named (h ▸ hnamed)
    | none =>
      simp only [hnamed, Option.orElse_none, Option.bind_eq_some_iff] at h
      obtain ⟨w, rfl, h⟩ := h
      cases hw : options.world with
      | none =>
        rw [hw] at hworld
        cases hworld
      | some worldId =>
        rw [hw] at hworld
        obtain ⟨w', hread, heq⟩ := chosen_eq_ok hworld
        obtain rfl := Option.some.inj heq
        exact .ofWorld hnamed hw hread h

/-- Documents that are loaded were there, all that are needed. -/
theorem gives_of_load {docs : Collected} (h : load fs store options = .ok docs) {kind : DocumentKind} {id : String}
    (hn : Needs fs store options kind id) : store.Gives fs id kind := by
  obtain ⟨d, hproject, h⟩ := bind_eq_ok.1 h
  obtain ⟨world, hworld, h⟩ := bind_eq_ok.1 h
  obtain ⟨timeline, htimeline, h⟩ := bind_eq_ok.1 h
  obtain ⟨scenes, hscenes, -⟩ := bind_eq_ok.1 h
  have hchosen {id : String} (hc : Chooses fs store options id) :
      ∃ t, store.timeline fs id = .ok t ∧ timeline = some t := by
    rw [(chooses_iff hworld).1 hc] at htimeline
    exact chosen_eq_ok htimeline
  cases hn with
  | project => exact ⟨d, hproject⟩
  | world h =>
    rw [h] at hworld
    obtain ⟨w, hw, -⟩ := chosen_eq_ok hworld
    exact ⟨w, hw⟩
  | timeline h =>
    obtain ⟨t, ht, -⟩ := hchosen h
    exact ⟨t, ht⟩
  | placed h ht hp =>
    obtain ⟨t, ht', rfl⟩ := hchosen h
    obtain rfl := Except.ok.inj (ht.symm.trans ht')
    exact scene_of_loadScenes hscenes ((sceneIds_spec _).2 _ hp)
  | listed hnone hd hs =>
    obtain rfl := Except.ok.inj (hproject.symm.trans hd)
    have hno : (options.timeline.orElse fun _ => world.bind (·.timeline)) = none :=
      Option.eq_none_iff_forall_ne_some.2 fun id h => hnone id ((chooses_iff hworld).2 h)
    rw [hno] at htimeline
    obtain rfl := Except.ok.inj htimeline
    exact scene_of_loadScenes hscenes ((sceneIds_spec _).2 (.bare _) (List.mem_map_of_mem hs))

end Collected

namespace Preparation

variable {fs : FileSystem} {store : Store} {options : ExportOptions} {reviewers : Reviewers BundleView}
  {p : Preparation}

/-- A file is no output directory. -/
theorem not_isFile_of_checkOutput (h : checkOutput fs options = .ok ()) : fs.isFile options.output = false := by
  by_contra hfile
  rw [Bool.not_eq_false] at hfile
  unfold FileSystem.isFile at hfile
  split at hfile
  · next c hs =>
    have hthere : fs.contains options.output = true := by simp [FileSystem.contains, hs, Except.isOk, Except.toBool]
    have hdir : fs.isDirectory options.output = false := by simp [FileSystem.isDirectory, hs]
    simp [checkOutput, hthere, hdir] at h
  · cases hfile

/-- An output directory that holds something is not used, unless this is asked for. -/
theorem empty_of_checkOutput (h : checkOutput fs options = .ok ()) (hforce : options.force = false)
    (hdry : options.dryRun = false) (hdir : fs.isDirectory options.output = true) {ns : List String} (hns : ns ≠ []) :
    fs.node? (fs.place options.output ++ ns) = none := by
  obtain ⟨hl, hn⟩ := FileSystem.isDirectory_iff.1 hdir
  have hthere : fs.contains options.output = true := by
    simp [FileSystem.contains, FileSystem.stat_of_locate hl hn, Except.isOk, Except.toBool]
  simp only [checkOutput, hthere, hdir, hforce, hdry, hl, Bool.not_true, Bool.false_eq_true, if_false,
    Bool.or_self] at h
  split at h
  · next hempty =>
    have hbelow : fs.below (fs.place options.output) = [] := by simpa [FileSystem.isEmptyDirectory] using hempty
    refine Option.eq_none_iff_forall_ne_some.2 fun n hnode => ?_
    have hmem := FileSystem.mem_below_iff.2 ⟨ns, hns, rfl, hnode⟩
    rw [hbelow] at hmem
    cases hmem
  · cases h

end Preparation

namespace Export

variable {fs : FileSystem} {store : Store} {options : ExportOptions} {reviewers : Reviewers BundleView}
  {now : Timestamp}

/-- What refuses an export. -/
inductive Refused (fs : FileSystem) (store : Store) (options : ExportOptions) (reviewers : Reviewers BundleView)
    (now : Timestamp) : Prop
  | gate (h : (reviewers.gate options.action).allow = false)
  | rating {q : RatingRequest}
      (hasked : (asked fs store options reviewers (run fs store options reviewers now).1).rating = some q)
      (h : (reviewers.rating q).allowed = false)
  | missing {kind : DocumentKind} {id : String} (hn : Collected.Needs fs store options kind id)
      (h : store.Missing fs kind id)
  | malformed {kind : DocumentKind} {id : String} (hn : Collected.Needs fs store options kind id)
      (h : store.Malformed fs kind id)
  | outputFile (h : fs.isFile options.output = true)
  | outputInUse (hdir : fs.isDirectory options.output = true) {ns : List String} (hns : ns ≠ [])
      (h : (fs.node? (fs.place options.output ++ ns)).isSome) (hforce : options.force = false)
      (hdry : options.dryRun = false)

theorem not_refused_of_run {p : Preparation} (h : Preparation.run fs store options reviewers = .ok p) :
    ¬Refused fs store options reviewers now := by
  have hp := Preparation.run_eq_ok_iff.1 h
  intro hr
  cases hr with
  | gate hdenied => simp [hp.allowed] at hdenied
  | rating hasked hdenied =>
    have hq : (asked fs store options reviewers (run fs store options reviewers now).1).rating =
        some (p.compiled.ratingRequest options p.docs.project) := by
      unfold asked
      rw [hp.loaded]
      dsimp only
      rw [Preparation.compile_eq_ok_iff.2 ⟨hp.allowed, hp.compiled_eq⟩]
      rfl
    obtain rfl := Option.some.inj (hasked.symm.trans hq)
    simp [hp.rated] at hdenied
  | missing hn hm => exact Store.not_missing_of_gives (Collected.gives_of_load hp.loaded hn) hm
  | malformed hn hm => exact Store.not_malformed_of_gives (Collected.gives_of_load hp.loaded hn) hm
  | outputFile hfile => simp [Preparation.not_isFile_of_checkOutput hp.usable] at hfile
  | outputInUse hdir hns hused hforce hdry =>
    simp [Preparation.empty_of_checkOutput hp.usable hforce hdry hdir hns] at hused

/-- An export that fails leaves every file and directory as it was, unless the file system itself refuses; and
whatever refuses an export makes it fail before anything is touched. -/
theorem refusal_touches_nothing (fs : FileSystem) (store : Store) (options : ExportOptions)
    (reviewers : Reviewers BundleView) (now : Timestamp) :
    (∀ e fs', run fs store options reviewers now = (.error e, fs') → (∀ path fault, e ≠ .io path fault) →
        fs' = fs) ∧
      (Refused fs store options reviewers now → ∃ e, run fs store options reviewers now = (.error e, fs)) := by
  constructor
  · intro e fs' h hio
    obtain ⟨-, rfl⟩ | ⟨p, w, hp, rfl, hw⟩ := run_eq_error_iff.1 h
    · rfl
    · cases hdry : options.dryRun with
      | true =>
        have hsame : (run fs store options reviewers now).2 = fs := files_of_dry_run hdry
        rw [h] at hsame
        exact hsame
      | false =>
        obtain ⟨path, fault, rfl⟩ := ofSystem_of_write hdry hw
        exact absurd rfl (hio path fault)
  · intro hr
    cases hp : Preparation.run fs store options reviewers with
    | ok p => exact absurd hr (not_refused_of_run hp)
    | error e => exact ⟨e, run_eq_error_iff.2 (.inl ⟨hp, rfl⟩)⟩

/-- An output directory in which there is something. -/
def usedFiles : FileSystem where
  nodes := .ofList [(["out"], .directory), (["out", "notes.txt"], .file (Bytes.ofList [1]))]

def soleShelf : Shelf := (({} : Shelf).addProject { id := "p", scenes := ["s"] }).addScene { id := "s" }

def usedOptions : ExportOptions := { project := "p", output := ⟨"out"⟩, assets := ⟨"assets"⟩ }

set_option maxRecDepth 100000 in
/-- Without force an export does not go into a directory in which there is something; nor does a forced one if
the gate denies it. -/
theorem refused_in_used_directory :
    run usedFiles (.memory soleShelf) usedOptions {} default =
        (.error (.unusableOutput ⟨"out"⟩ "directory is not empty (use --force to overwrite)"), usedFiles) ∧
      ∃ payload, run usedFiles (.memory soleShelf) { usedOptions with force := true } { gate := fun _ => {} } default =
        (.error (.blocked "gate" payload), usedFiles) := by
  constructor
  · have hdir : usedFiles.isDirectory usedOptions.output = true := by decide +kernel
    have hused : (usedFiles.node? (usedFiles.place usedOptions.output ++ ["notes.txt"])).isSome := by decide +kernel
    obtain ⟨e, he⟩ := (refusal_touches_nothing usedFiles (.memory soleShelf) usedOptions {} default).2
      (.outputInUse hdir (List.cons_ne_nil _ _) hused rfl rfl)
    have hreason : (run usedFiles (.memory soleShelf) usedOptions {} default).1 =
        .error (.unusableOutput ⟨"out"⟩ "directory is not empty (use --force to overwrite)") := by
      rfl
    rw [he] at hreason
    rw [he, Except.error.inj hreason]
  · have hdenied : (run usedFiles (.memory soleShelf) { usedOptions with force := true } { gate := fun _ => {} }
        default).1 = .error (.blocked "gate" (Json.normalize (GateDecision.toJson {}))) := by
      rfl
    cases hr : run usedFiles (.memory soleShelf) { usedOptions with force := true } { gate := fun _ => {} } default with
    | mk result fs' =>
      rw [hr] at hdenied
      obtain rfl : result = _ := hdenied
      obtain rfl := (refusal_touches_nothing _ _ _ _ _).1 _ _ hr (fun _ _ he => by cases he)
      exact ⟨_, rfl⟩

end Export

end StoryPress
