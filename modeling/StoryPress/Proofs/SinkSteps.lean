import Mathlib.Data.List.Forall2
import StoryPress.Bundle.Export
import StoryPress.Proofs.Operations

/-!
# Steps of a sink

* `Runs`: a piece of work ends well, with a result and a workbench;
* `places_of_put`, `changes_of_put`: what putting an artifact does in a real run and in a dry run;
* `mem_stale_iff`: the files that a run did not produce, by their walked names;
* `Prunes`: how pruning ends; `prune_real`, `prune_dry`: what it does.
-/

namespace StoryPress

/-- What work comes to, and the workbench it leaves. -/
def outcome {α : Type} (x : Work α) (w : Workbench) : Except Failure α × Workbench := x.run.run w

/-- The work ends well. -/
def Runs {α : Type} (x : Work α) (w : Workbench) (a : α) (w' : Workbench) : Prop := outcome x w = (.ok a, w')

namespace Runs

variable {α β : Type} {w w' : Workbench}

theorem outcome_bind (x : Work α) (f : α → Work β) (w : Workbench) :
    outcome (x >>= f) w =
      match outcome x w with
      | (.ok a, w₁) => outcome (f a) w₁
      | (.error e, w₁) => (.error e, w₁) := by
  unfold outcome
  simp only [ExceptT.run_bind, StateT.run_bind]
  change (match x.run.run w with | (r, w₁) => _) = _
  rcases x.run.run w with ⟨_ | _, w₁⟩ <;> rfl

theorem bind_iff {x : Work α} {f : α → Work β} {b : β} :
    Runs (x >>= f) w b w' ↔ ∃ a w₁, Runs x w a w₁ ∧ Runs (f a) w₁ b w' := by
  unfold Runs
  rw [outcome_bind]
  rcases hx : outcome x w with ⟨e | a, w₁⟩
  · simp
  · constructor
    · exact fun h => ⟨a, w₁, rfl, h⟩
    · rintro ⟨c, w₂, hc, h⟩
      obtain ⟨hval, rfl⟩ := Prod.mk.inj hc
      obtain rfl := Except.ok.inj hval
      exact h

/-- What ends well after a step ends well with the step. -/
theorem exists_bind {x : Work α} {f : α → Work β} {w₁ : Workbench} {a : α} {P : Workbench → Prop} (hx : Runs x w a w₁)
    (hf : ∃ b w', Runs (f a) w₁ b w' ∧ P w') : ∃ b w', Runs (x >>= f) w b w' ∧ P w' := by
  obtain ⟨b, w', hf, hp⟩ := hf
  exact ⟨b, w', bind_iff.2 ⟨a, w₁, hx, hf⟩, hp⟩

theorem pure_iff {a b : α} : Runs (pure a) w b w' ↔ a = b ∧ w = w' := by
  change (Except.ok a, w) = (Except.ok b, w') ↔ _
  simp

theorem mapM_nil_iff {f : α → Work β} {bs : List β} : Runs ([].mapM f) w bs w' ↔ bs = [] ∧ w = w' := by
  rw [List.mapM_nil, pure_iff, eq_comm]

/-- A series of jobs does the first and then the others. -/
theorem mapM_cons_iff {f : α → Work β} {a : α} {as : List α} {bs : List β} :
    Runs ((a :: as).mapM f) w bs w' ↔
      ∃ b w₁ bs', Runs (f a) w b w₁ ∧ Runs (as.mapM f) w₁ bs' w' ∧ bs = b :: bs' := by
  rw [List.mapM_cons, bind_iff]
  refine exists_congr fun b => exists_congr fun w₁ => ?_
  rw [bind_iff]
  constructor
  · rintro ⟨hfirst, bs', w₂, hrest, h⟩
    obtain ⟨rfl, rfl⟩ := pure_iff.1 h
    exact ⟨bs', hfirst, hrest, rfl⟩
  · rintro ⟨bs', hfirst, hrest, rfl⟩
    exact ⟨hfirst, bs', w', hrest, pure_iff.2 ⟨rfl, rfl⟩⟩

theorem get_iff {s : Workbench} : Runs get w s w' ↔ w = s ∧ w = w' := by
  change (Except.ok w, w) = (Except.ok s, w') ↔ _
  simp

theorem updating_iff {f : Sink → Sink} : Runs (Sink.updating f) w () w' ↔ { w with sink := f w.sink } = w' := by
  change (Except.ok (), _) = (Except.ok (), w') ↔ _
  simp

theorem reading_iff {f : FileSystem → Except Failure α} {a : α} :
    Runs (Sink.reading f) w a w' ↔ f w.files = .ok a ∧ w = w' := by
  change (f w.files, w) = (Except.ok a, w') ↔ _
  simp

theorem outcome_changing (p : Path) (f : FileSystem → Except IoFault FileSystem) (w : Workbench) :
    outcome (Sink.changing p f) w =
      match f w.files with
      | .ok files => (.ok (), { w with files := files })
      | .error e => (.error (.io p e), w) := rfl

theorem changing_iff {p : Path} {f : FileSystem → Except IoFault FileSystem} :
    Runs (Sink.changing p f) w () w' ↔ ∃ files, f w.files = .ok files ∧ w' = { w with files := files } := by
  unfold Runs
  rw [outcome_changing]
  cases f w.files with
  | error e => simp
  | ok files => simp [eq_comm]

end Runs

/-- What a content comes to among files. -/
def Content.bytesIn (fs : FileSystem) : Content → Option ByteArray
  | text s => some s.toUTF8
  | bytes b => some b
  | copyOf source => fs.fileAt (fs.place source)

/-- What a content leaves at a location, with the given files: one that is copied onto itself is emptied. -/
def Content.putAt (fs : FileSystem) (held : Location → Option ByteArray) (l : Location) :
    Content → Option ByteArray
  | text s => some s.toUTF8
  | bytes b => some b
  | copyOf source => if fs.place source = l then some ByteArray.empty else held (fs.place source)

theorem Content.putAt_congr {fs fs' : FileSystem} (h : ∀ p, fs'.place p = fs.place p)
    (held : Location → Option ByteArray) (l : Location) (content : Content) :
    content.putAt fs' held l = content.putAt fs held l := by
  cases content <;> simp [putAt, h]

namespace Sink

variable {w w' : Workbench} {path : String} {content : Content} {target : Path}

theorem places_of_store (h : Runs (store target content) w () w') :
    w'.sink = w.sink ∧ ∃ bytes, w.files.Places w'.files target bytes ∧
      content.putAt w.files w.files.fileAt (w.files.place target) = some bytes := by
  cases content with
  | text s =>
    simp only [store] at h
    obtain ⟨files, hf, rfl⟩ := Runs.changing_iff.1 h
    exact ⟨rfl, _, FileSystem.places_write hf, rfl⟩
  | bytes b =>
    simp only [store] at h
    obtain ⟨files, hf, rfl⟩ := Runs.changing_iff.1 h
    exact ⟨rfl, _, FileSystem.places_write hf, rfl⟩
  | copyOf source =>
    simp only [store] at h
    obtain ⟨files, hf, rfl⟩ := Runs.changing_iff.1 h
    obtain ⟨bytes, hp, hb⟩ := FileSystem.places_copy hf
    exact ⟨rfl, bytes, hp, hb⟩

/-- A real run puts an artifact at its place, and changes no other file. -/
theorem places_of_put (hd : w.sink.dryRun = false) (h : Runs (put path content) w target w') :
    target = w.sink.root.join path ∧
      w'.sink = { w.sink with
        produced := path :: w.sink.produced
        written := w.sink.written ++ [w.sink.root.join path] } ∧
      ∃ bytes, w.files.Places w'.files (w.sink.root.join path) bytes ∧
        content.putAt w.files w.files.fileAt (w.files.place (w.sink.root.join path)) = some bytes := by
  unfold put at h
  obtain ⟨s, w₁, hget, h⟩ := Runs.bind_iff.1 h
  obtain ⟨rfl, rfl⟩ := Runs.get_iff.1 hget
  obtain ⟨⟨⟩, w₁, hu, h⟩ := Runs.bind_iff.1 h
  obtain rfl := Runs.updating_iff.1 hu
  split at h
  · next hdry =>
    rw [show w.sink.dryRun = false from hd] at hdry
    cases hdry
  -- the directories above the target come first
  have hmade : ∃ mid, w.files.Grows mid ∧ Runs (do
      store (w.sink.root.join path) content
      updating fun s => { s with written := s.written ++ [w.sink.root.join path] }
      return w.sink.root.join path)
      ⟨mid, { w.sink with produced := path :: w.sink.produced }⟩ target w' := by
    split at h
    · obtain ⟨⟨⟩, w₂, hc, h⟩ := Runs.bind_iff.1 h
      obtain ⟨mid, hmid, rfl⟩ := Runs.changing_iff.1 hc
      exact ⟨mid, FileSystem.grows_makeDirectories hmid, h⟩
    · exact ⟨w.files, .refl _, h⟩
  obtain ⟨mid, hgrows, h⟩ := hmade
  obtain ⟨⟨⟩, w₂, hs, h⟩ := Runs.bind_iff.1 h
  obtain ⟨⟨⟩, w₃, hu, h⟩ := Runs.bind_iff.1 h
  obtain rfl := Runs.updating_iff.1 hu
  obtain ⟨rfl, rfl⟩ := Runs.pure_iff.1 h
  obtain ⟨hsink, bytes, hp, hb⟩ := places_of_store hs
  have hplace (p : Path) : mid.place p = w.files.place p := hgrows.place_eq p
  have hheld : mid.fileAt = w.files.fileAt := funext hgrows.fileAt_eq
  refine ⟨rfl, by simp [hsink], bytes, ⟨hgrows.toExtends.trans hp.toExtends, ?_, ?_, hp.leads_self⟩, ?_⟩
  · rw [← hplace]
    exact hp.fileAt_self
  · intro l hl
    rw [hp.fileAt_of_ne l (by rwa [hplace]), hheld]
  · rw [← hb, Content.putAt_congr hplace, hplace, hheld]

/-- A dry run records what putting an artifact would change, and touches nothing. -/
theorem changes_of_put (hd : w.sink.dryRun = true) (h : Runs (put path content) w target w') :
    target = w.sink.root.join path ∧ w'.files = w.files ∧
      ∃ change, changeFor w.files path (w.sink.root.join path) content = .ok change ∧
        w'.sink = { w.sink with
          produced := path :: w.sink.produced
          changes := w.sink.changes ++ [change] } := by
  unfold put at h
  obtain ⟨s, w₁, hget, h⟩ := Runs.bind_iff.1 h
  obtain ⟨rfl, rfl⟩ := Runs.get_iff.1 hget
  obtain ⟨⟨⟩, w₁, hu, h⟩ := Runs.bind_iff.1 h
  obtain rfl := Runs.updating_iff.1 hu
  split at h
  · obtain ⟨change, w₂, hr, h⟩ := Runs.bind_iff.1 h
    obtain ⟨hchange, rfl⟩ := Runs.reading_iff.1 hr
    obtain ⟨⟨⟩, w₃, hu, h⟩ := Runs.bind_iff.1 h
    obtain rfl := Runs.updating_iff.1 hu
    obtain ⟨rfl, rfl⟩ := Runs.pure_iff.1 h
    exact ⟨rfl, rfl, change, hchange, rfl⟩
  · next hdry => exact absurd hd hdry

/-! ## Pruning -/

/-- The name under which a walk knows the file with the given names. -/
def walkedName (ns : List String) : String :=
  Text.mapChars (fun c => if c = '\\' then '/' else c) (Text.joinWith "/" ns)

section
variable {fs : FileSystem} {s : Sink} {ms : List String} (hne : ms ≠ []) (hms : ∀ m ∈ ms, Path.IsName m)
include hne hms

theorem stale_eq (hw : fs.WellFormed) (hd : fs.isDirectory (s.root.join (Text.joinWith "/" ms)) = true) :
    stale fs s (s.root.join (Text.joinWith "/" ms)) =
      (fs.filesBelow (fs.place s.root ++ ms)).filterMap fun (ns, _) =>
        if s.produced.contains (walkedName (ms ++ ns)) then none
        else some (walkedName (ms ++ ns), s.root.join (Text.joinWith "/" (ms ++ ns))) := by
  unfold stale
  rw [FileSystem.walkFiles_eq hw hd, FileSystem.place_join_names hne hms]
  simp only [List.filterMap_map]
  apply List.filterMap_congr
  rintro ⟨ns, c⟩ hns
  obtain ⟨hnne, hc⟩ := FileSystem.mem_filesBelow_iff.1 hns
  have hnames : ∀ n ∈ ns, Path.IsName n := fun n hn =>
    hw.isName (FileSystem.fileAt_eq_some_iff.1 hc) n (by simp [hn])
  have hall : ∀ n ∈ ms ++ ns, Path.IsName n := fun n hn => (List.mem_append.1 hn).elim (hms n) (hnames n)
  have hjoin : (s.root.join (Text.joinWith "/" ms)).join (Text.joinWith "/" ns) =
      s.root.join (Text.joinWith "/" (ms ++ ns)) := by
    rw [Path.join_join hne hms (Path.startsAtRoot_joinNames hnne hnames), Text.joinWith_append hne hnne]
  simp only [Function.comp_apply, hjoin, Path.textBelow?_join (List.append_ne_nil_of_left_ne_nil hne ns) hall]
  rfl

theorem mem_stale_iff (hw : fs.WellFormed) (hd : fs.isDirectory (s.root.join (Text.joinWith "/" ms)) = true)
    {rel : String} {p : Path} :
    (rel, p) ∈ stale fs s (s.root.join (Text.joinWith "/" ms)) ↔
      ∃ ns, ns ≠ [] ∧ (fs.fileAt (fs.place s.root ++ (ms ++ ns))).isSome ∧
        walkedName (ms ++ ns) ∉ s.produced ∧ rel = walkedName (ms ++ ns) ∧
        p = s.root.join (Text.joinWith "/" (ms ++ ns)) := by
  rw [stale_eq hne hms hw hd, List.mem_filterMap]
  constructor
  · rintro ⟨⟨ns, c⟩, hns, hp⟩
    obtain ⟨hnne, hc⟩ := FileSystem.mem_filesBelow_iff.1 hns
    simp only [Option.ite_none_left_eq_some, List.contains_iff_mem] at hp
    obtain ⟨hnew, hp⟩ := hp
    obtain ⟨rfl, rfl⟩ := Prod.mk.inj (Option.some.inj hp)
    exact ⟨ns, hnne, by rw [← List.append_assoc, hc]; rfl, hnew, rfl, rfl⟩
  · rintro ⟨ns, hnne, hc, hnew, rfl, rfl⟩
    obtain ⟨c, hc⟩ := Option.isSome_iff_exists.1 hc
    refine ⟨(ns, c), FileSystem.mem_filesBelow_iff.2 ⟨hnne, by rw [List.append_assoc, hc]⟩, ?_⟩
    simp [hnew]

/-- The places of the files that a run did not produce. -/
theorem place_stale_iff (hw : fs.WellFormed) (hd : fs.isDirectory (s.root.join (Text.joinWith "/" ms)) = true)
    {l : Location} :
    (∃ e ∈ stale fs s (s.root.join (Text.joinWith "/" ms)), fs.place e.2 = l) ↔
      ∃ ns, ns ≠ [] ∧ (fs.fileAt l).isSome ∧ walkedName (ms ++ ns) ∉ s.produced ∧
        l = fs.place s.root ++ (ms ++ ns) := by
  have hplace {ns : List String} (hc : (fs.fileAt (fs.place s.root ++ (ms ++ ns))).isSome) :
      fs.place (s.root.join (Text.joinWith "/" (ms ++ ns))) = fs.place s.root ++ (ms ++ ns) := by
    obtain ⟨c, hc⟩ := Option.isSome_iff_exists.1 hc
    apply FileSystem.place_join_names (List.append_ne_nil_of_left_ne_nil hne ns)
    intro n hn
    exact hw.isName (FileSystem.fileAt_eq_some_iff.1 hc) n (by simp [hn])
  constructor
  · rintro ⟨⟨rel, q⟩, hmem, rfl⟩
    obtain ⟨ns, hnne, hc, hnew, -, rfl⟩ := (mem_stale_iff hne hms hw hd).1 hmem
    exact ⟨ns, hnne, by rw [hplace hc]; exact hc, hnew, hplace hc⟩
  · rintro ⟨ns, hnne, hc, hnew, rfl⟩
    exact ⟨_, (mem_stale_iff hne hms hw hd).2 ⟨ns, hnne, hc, hnew, rfl, rfl⟩, hplace hc⟩

end

theorem fileAt_of_removeAll {ps : List Path} (hw : w.files.WellFormed) (h : Runs (removeAll ps) w () w') :
    w'.sink = w.sink ∧ w.files.Shrinks w'.files ∧
      (∀ p ∈ ps, w'.files.fileAt (w.files.place p) = none) ∧
      ∀ l, (∀ p ∈ ps, l ≠ w.files.place p) → w'.files.fileAt l = w.files.fileAt l := by
  induction ps generalizing w with
  | nil =>
    obtain ⟨-, rfl⟩ := Runs.pure_iff.1 h
    exact ⟨rfl, .refl _, by simp, fun _ _ => rfl⟩
  | cons p ps ih =>
    obtain ⟨⟨⟩, w₁, hr, h⟩ := Runs.bind_iff.1 h
    obtain ⟨files, hf, rfl⟩ := Runs.changing_iff.1 hr
    obtain ⟨hs, hself, hother⟩ := FileSystem.removeFile_eq_ok hw hf
    obtain ⟨hsink, hshrinks, hgone, hkept⟩ := ih (hs.wellFormed hw) h
    have hplace (q : Path) : files.place q = w.files.place q := hs.place_eq q
    simp only [hplace] at hgone hkept
    refine ⟨hsink, hs.trans hshrinks, ?_, ?_⟩
    · intro q hq
      rcases List.mem_cons.1 hq with rfl | hq
      · by_cases hmem : ∃ r ∈ ps, w.files.place q = w.files.place r
        · obtain ⟨r, hr, heq⟩ := hmem
          exact heq ▸ hgone r hr
        · rw [hkept _ fun r hr heq => hmem ⟨r, hr, heq⟩]
          exact hself
      · exact hgone q hq
    · intro l hl
      rw [hkept l fun q hq => hl q (by simp [hq]), hother l (hl p (by simp))]

/-- What pruning below some names leaves of the files. -/
structure Pruned (root : Path) (produced : List String) (ms : List String) (fs fs' : FileSystem) : Prop extends
    fs.Shrinks fs' where
  removed : fs.Leads root → ∀ ns, ns ≠ [] → walkedName (ms ++ ns) ∉ produced →
    fs'.fileAt (fs.place root ++ (ms ++ ns)) = none
  kept : ∀ l, (∀ ns, ns ≠ [] → l = fs.place root ++ (ms ++ ns) → walkedName (ms ++ ns) ∈ produced) →
    fs'.fileAt l = fs.fileAt l

section
variable {fs mid : FileSystem} {s : Sink} {ms : List String} (hne : ms ≠ []) (hms : ∀ m ∈ ms, Path.IsName m)
  (hw : fs.WellFormed)
include hne hms hw

/-- Where there is no directory, nothing is below it. -/
theorem pruned_of_no_directory (hd : fs.isDirectory (s.root.join (Text.joinWith "/" ms)) = false) :
    Pruned s.root s.produced ms fs fs := by
  refine ⟨.refl fs, ?_, fun _ _ => rfl⟩
  intro hl ns hnne _
  cases hfile : fs.fileAt (fs.place s.root ++ (ms ++ ns)) with
  | none => rfl
  | some c =>
    rw [← List.append_assoc] at hfile
    have hdir := hw.node?_of_append hnne (FileSystem.fileAt_eq_some_iff.1 hfile)
    rw [(FileSystem.isDirectory_join_iff hw hne hms).2 ⟨hl, hdir⟩] at hd
    cases hd

theorem pruned_of_removed (hd : fs.isDirectory (s.root.join (Text.joinWith "/" ms)) = true)
    (hs : fs.Shrinks mid)
    (hgone : ∀ e ∈ stale fs s (s.root.join (Text.joinWith "/" ms)), mid.fileAt (fs.place e.2) = none)
    (hkept : ∀ l, (∀ e ∈ stale fs s (s.root.join (Text.joinWith "/" ms)), l ≠ fs.place e.2) →
      mid.fileAt l = fs.fileAt l) : Pruned s.root s.produced ms fs mid := by
  refine ⟨hs, ?_, ?_⟩
  · intro _ ns hnne hnew
    cases hfile : fs.fileAt (fs.place s.root ++ (ms ++ ns)) with
    | none => exact hs.fileAt_eq_none hfile
    | some c =>
      obtain ⟨e, he, hplace⟩ := (place_stale_iff hne hms hw hd).2 ⟨ns, hnne, by simp [hfile], hnew, rfl⟩
      rw [← hplace]
      exact hgone e he
  · intro l hl
    apply hkept l
    rintro e he rfl
    obtain ⟨ns, hnne, -, hnew, heq⟩ := (place_stale_iff hne hms hw hd).1 ⟨e, he, rfl⟩
    exact hnew (hl ns hnne heq)

end

/-- How pruning a directory ends. -/
inductive Prunes (dir : String) (w : Workbench) : Workbench → Prop
  | absent (hdir : w.files.isDirectory (w.sink.root.join dir) = false) : Prunes dir w w
  | surveyed (hdir : w.files.isDirectory (w.sink.root.join dir) = true) (hdry : w.sink.dryRun = true) :
      Prunes dir w { w with sink := { w.sink with
        changes := w.sink.changes ++
          (stale w.files w.sink (w.sink.root.join dir)).map fun (p, _) => ⟨p, .removed, none⟩ } }
  | swept (hdir : w.files.isDirectory (w.sink.root.join dir) = true) (hreal : w.sink.dryRun = false)
      {mid : Workbench} {l : Location}
      (hremoved : Runs (removeAll ((stale w.files w.sink (w.sink.root.join dir)).map (·.2))) w () mid)
      (hl : mid.files.locate (w.sink.root.join dir) = .ok l) :
      Prunes dir w { mid with files := mid.files.sweep l }

theorem prunes_of_prune {dir : String} {count : Nat} (h : Runs (prune dir) w count w') : Prunes dir w w' := by
  unfold prune at h
  obtain ⟨w₀, w₁, hget, h⟩ := Runs.bind_iff.1 h
  obtain ⟨rfl, rfl⟩ := Runs.get_iff.1 hget
  dsimp only at h
  split at h
  · next hnodir =>
    obtain ⟨-, rfl⟩ := Runs.pure_iff.1 h
    exact .absent (by simpa using hnodir)
  next hdir =>
  simp only [Bool.not_eq_true', Bool.not_eq_false] at hdir
  split at h
  · next hdry =>
    obtain ⟨⟨⟩, w₁, hu, h⟩ := Runs.bind_iff.1 h
    obtain rfl := Runs.updating_iff.1 hu
    obtain ⟨-, rfl⟩ := Runs.pure_iff.1 h
    exact .surveyed hdir hdry
  · next hreal =>
    obtain ⟨⟨⟩, mid, hremoved, h⟩ := Runs.bind_iff.1 h
    obtain ⟨⟨⟩, w₂, hc, h⟩ := Runs.bind_iff.1 h
    obtain ⟨-, rfl⟩ := Runs.pure_iff.1 h
    obtain ⟨files, hf, rfl⟩ := Runs.changing_iff.1 hc
    obtain ⟨l, hl, hsweep⟩ := bind_eq_ok.1 hf
    obtain rfl := pure_eq_ok.1 hsweep
    exact .swept hdir (by simpa using hreal) hremoved hl

theorem prune_real {ms : List String} (hne : ms ≠ []) (hms : ∀ m ∈ ms, Path.IsName m) (hw : w.files.WellFormed)
    (hd : w.sink.dryRun = false) {count : Nat} (h : Runs (prune (Text.joinWith "/" ms)) w count w') :
    w'.sink = w.sink ∧ Pruned w.sink.root w.sink.produced ms w.files w'.files := by
  cases prunes_of_prune h with
  | absent hdir => exact ⟨rfl, pruned_of_no_directory hne hms hw hdir⟩
  | surveyed _ hdry => cases hd.symm.trans hdry
  | @swept hdir _ mid l hremoved hl =>
    obtain ⟨hsink, hshrinks, hgone, hkept⟩ := fileAt_of_removeAll hw hremoved
    simp only [List.mem_map, forall_exists_index, and_imp, forall_apply_eq_imp_iff₂] at hgone hkept
    have hpruned := pruned_of_removed hne hms hw hdir hshrinks hgone hkept
    have hplace (p : Path) : mid.files.place p = w.files.place p := hshrinks.place_eq p
    -- what is swept is still the directory that was pruned
    have hnode : mid.files.node? l = some .directory := by
      obtain ⟨n, hn⟩ := Option.isSome_iff_exists.1 (FileSystem.node?_of_follow (FileSystem.leads_of_locate hl))
      obtain rfl := FileSystem.locate_eq_place hl
      have hn₀ := hshrinks.node? _ n hn
      rw [hplace, (FileSystem.isDirectory_iff.1 hdir).2] at hn₀
      rw [hn, hn₀]
    obtain ⟨hswept, hsame⟩ := FileSystem.shrinks_sweep hnode
    refine ⟨hsink, hshrinks.trans hswept, ?_, ?_⟩
    · intro hleads ns hnne hnew
      rw [hsame]
      exact hpruned.removed hleads ns hnne hnew
    · intro l hl
      rw [hsame]
      exact hpruned.kept l hl

/-- What pruning a directory would remove, as a dry run records it. -/
def removals (fs : FileSystem) (s : Sink) (dir : String) : List Change :=
  if fs.isDirectory (s.root.join dir) then
    (stale fs s (s.root.join dir)).map fun (p, _) => ⟨p, .removed, none⟩
  else []

theorem prune_dry {dir : String} (hd : w.sink.dryRun = true) {count : Nat} (h : Runs (prune dir) w count w') :
    w' = { w with sink := { w.sink with changes := w.sink.changes ++ removals w.files w.sink dir } } := by
  cases prunes_of_prune h with
  | absent hdir => simp [removals, hdir]
  | surveyed hdir _ => simp [removals, hdir]
  | swept _ hreal _ _ => cases hd.symm.trans hreal

end Sink

namespace Export

variable {w w' : Workbench}

/-- What pruning below several lists of names leaves of the files. -/
structure PrunedAll (root : Path) (produced : List String) (mss : List (List String)) (fs fs' : FileSystem) :
    Prop extends fs.Shrinks fs' where
  removed : fs'.Leads root → ∀ ms ∈ mss, ∀ ns, ns ≠ [] → Sink.walkedName (ms ++ ns) ∉ produced →
    fs'.fileAt (fs.place root ++ (ms ++ ns)) = none
  kept : ∀ l, (∀ ms ∈ mss, ∀ ns, ns ≠ [] → l = fs.place root ++ (ms ++ ns) →
    Sink.walkedName (ms ++ ns) ∈ produced) → fs'.fileAt l = fs.fileAt l

theorem pruneAll_real {mss : List (List String)} (hmss : ∀ ms ∈ mss, ms ≠ [] ∧ ∀ m ∈ ms, Path.IsName m)
    (hw : w.files.WellFormed) (hd : w.sink.dryRun = false)
    (h : Runs (pruneAll (mss.map (Text.joinWith "/"))) w () w') :
    w'.sink = w.sink ∧ PrunedAll w.sink.root w.sink.produced mss w.files w'.files := by
  induction mss generalizing w with
  | nil =>
    obtain ⟨-, rfl⟩ := Runs.pure_iff.1 h
    exact ⟨rfl, .refl _, by simp, fun _ _ => rfl⟩
  | cons ms mss ih =>
    obtain ⟨count, w₁, hp, h⟩ := Runs.bind_iff.1 h
    obtain ⟨hne, hms⟩ := hmss ms (by simp)
    obtain ⟨hsink, hpruned⟩ := Sink.prune_real hne hms hw hd hp
    obtain ⟨hsink', hrest⟩ := ih (fun x hx => hmss x (by simp [hx])) (hpruned.wellFormed hw) (hsink ▸ hd) h
    rw [hsink] at hrest
    have hplace : w₁.files.place w.sink.root = w.files.place w.sink.root := hpruned.place_eq _
    refine ⟨hsink'.trans hsink, hpruned.toShrinks.trans hrest.toShrinks, fun hl ns hns ks hks hnew => ?_,
      fun l hl => ?_⟩
    · have hl₁ := hrest.leads hl
      rcases List.mem_cons.1 hns with rfl | hns
      · exact hrest.fileAt_eq_none (hpruned.removed (hpruned.leads hl₁) ks hks hnew)
      · rw [← hplace]
        exact hrest.removed hl ns hns ks hks hnew
    · rw [hrest.kept l fun ns hns => hplace ▸ hl ns (by simp [hns]), hpruned.kept l (hl ms (by simp))]

theorem pruneAll_dry {dirs : List String} (hd : w.sink.dryRun = true) (h : Runs (pruneAll dirs) w () w') :
    w' = { w with sink := { w.sink with
      changes := w.sink.changes ++ dirs.flatMap (Sink.removals w.files w.sink) } } := by
  induction dirs generalizing w with
  | nil =>
    obtain ⟨-, rfl⟩ := Runs.pure_iff.1 h
    simp
  | cons dir dirs ih =>
    obtain ⟨count, w₁, hp, h⟩ := Runs.bind_iff.1 h
    obtain rfl := Sink.prune_dry hd hp
    rw [ih (by exact hd) h, List.flatMap_cons, ← List.append_assoc]
    rfl

/-- A dry run records the change of each artifact, and touches nothing. -/
theorem putAll_dry {as : List Preparation.Artifact} (hd : w.sink.dryRun = true) (h : Runs (putAll as) w () w') :
    w'.files = w.files ∧ ∃ changes,
      List.Forall₂ (fun a c => Sink.changeFor w.files a.1 (w.sink.root.join a.1) a.2 = .ok c) as changes ∧
      w'.sink = { w.sink with
        produced := (as.map (·.1)).reverse ++ w.sink.produced
        changes := w.sink.changes ++ changes } := by
  induction as generalizing w with
  | nil =>
    obtain ⟨-, rfl⟩ := Runs.pure_iff.1 h
    exact ⟨rfl, [], .nil, by simp⟩
  | cons a as ih =>
    obtain ⟨target, w₁, hp, h⟩ := Runs.bind_iff.1 h
    obtain ⟨-, hfiles, change, hchange, hsink⟩ := Sink.changes_of_put hd hp
    obtain ⟨hfiles', changes, hchanges, hsink'⟩ := ih (by rw [hsink]; exact hd) h
    rw [hfiles, hsink] at hchanges
    refine ⟨hfiles'.trans hfiles, change :: changes, .cons hchange hchanges, ?_⟩
    rw [hsink', hsink]
    simp

end Export

end StoryPress
