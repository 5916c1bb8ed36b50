import Mathlib.Logic.Relation
import StoryPress.Proofs.Archives
import StoryPress.Proofs.Beside
import StoryPress.Proofs.Delivered
import StoryPress.Proofs.Endings
import StoryPress.Proofs.NormalSlugs
import StoryPress.Proofs.RecordedForks
import StoryPress.Proofs.RoutePlans

/-!
# Exports and the packages made of them

* `Delivered.node?_game`: an export leaves a game in the bundle and in each fork;
* `Package.recordedForks_iff`: a packager finds the forks of the export in its manifest;
* `Package.forkSource_ofRoute`: and it accepts each of them;
* `packages_iff_leads`: what is packaged after any number of exports.
-/

namespace StoryPress

open Layout

namespace Preparation.Delivered

variable {fs fs' : FileSystem} {options : ExportOptions} {p : Preparation} {now : Timestamp}

/-- The game of a tree is there, since its script is. -/
theorem node?_game (h : Delivered fs fs' options now p) {dir script : String} (hd : IsTree dir)
    (ha : (under dir Layout.script, Content.text script) ∈ p.files (settledText fs options now)) :
    fs'.node? (fs.place options.output ++ (names dir ++ [gameDir])) = some .directory := by
  have hclean := clean_script.1.under hd
  have hsome := h.overlay_isSome ha
  rw [← h.fileAt_of_recognised ha (recognised_of_clean ha hclean), place_inBundle hclean.inBundle, names_under,
    names_script.1] at hsome
  obtain ⟨c, hc⟩ := Option.isSome_iff_exists.1 hsome
  have hfile := FileSystem.fileAt_eq_some_iff.1 hc
  rw [show names dir ++ [gameDir, "script.rpy"] = (names dir ++ [gameDir]) ++ ["script.rpy"] by simp,
    ← List.append_assoc] at hfile
  exact h.wellFormed_after.node?_of_append (List.cons_ne_nil _ []) hfile

theorem node?_mainGame (h : Delivered fs fs' options now p) :
    fs'.node? (fs.place options.output ++ [gameDir]) = some .directory := by
  have hscript : (under "" Layout.script, Content.text p.master.script) ∈ p.files (settledText fs options now) := by
    simp [files, gameTree, stamped]
  exact h.node?_game (.inl rfl) hscript

theorem node?_forkGame (h : Delivered fs fs' options now p) {route : Route} (hforks : p.plan.forks = true)
    (hr : route ∈ p.plan.routes) :
    fs'.node? (fs.place options.output ++ [forksDir, route.slug, gameDir]) = some .directory := by
  have hmem : fork options p.compiled route ∈ p.forks := by
    rw [h.settled.forks_eq, if_pos hforks]
    exact List.mem_map_of_mem hr
  have hslug := h.settled.plainName_slug hmem
  have hscript : (under (Layout.fork route.slug) Layout.script,
      Content.text (fork options p.compiled route).2.2.script) ∈ p.files (settledText fs options now) := by
    simp only [files, List.mem_append, List.mem_flatMap]
    exact .inl (.inl (.inr ⟨_, hmem, by simp [forkFiles, gameTree, stamped, fork]⟩))
  have hgame := h.node?_game (.inr ⟨_, hslug, rfl⟩) hscript
  rw [names_fork hslug] at hgame
  exact hgame

end Preparation.Delivered

namespace Package

/-- The bundle, and the trees of forks that follow routes. -/
def treesOf (o : PackageOptions) (routes : List Route) : List Source :=
  ⟨none, o.slug, o.exportRoot⟩ ::
    routes.map fun r => ⟨some r.slug, o.slug ++ "-" ++ r.slug, o.exportRoot.join (Layout.fork r.slug)⟩

variable {fs fs' : FileSystem} {options : ExportOptions} {p : Preparation} {now : Timestamp} {o : PackageOptions}

section
variable (h : Preparation.Delivered fs fs' options now p) (hroot : fs'.place o.exportRoot = fs'.place options.output)
include h hroot

/-- The game of the bundle is found just where the path of the packager leads to it. -/
theorem isDirectory_game_iff : fs'.isDirectory (o.exportRoot.join gameDir) = true ↔ fs'.Leads o.exportRoot := by
  have hgame : fs'.isDirectory (o.exportRoot.join (Text.joinWith "/" [gameDir])) = true ↔ _ :=
    FileSystem.isDirectory_join_iff h.wellFormed_after (List.cons_ne_nil gameDir []) (by decide)
  rw [hroot, h.place_eq] at hgame
  exact hgame.trans (and_iff_left h.node?_mainGame)

variable (hl : fs'.Leads o.exportRoot)
include hl

/-- A packager accepts the forks that an export makes. -/
theorem forkSource_ofRoute (hforks : p.plan.forks = true) {route : Route} (hr : route ∈ p.plan.routes) :
    forkSource fs' o (.ofRoute route) =
      .ok ⟨some route.slug, o.slug ++ "-" ++ route.slug, o.exportRoot.join (Layout.fork route.slug)⟩ := by
  obtain ⟨hne, hchars⟩ := h.settled.distinct.slug_named route hr
  have hsafe := Naming.isSafeComponent_of_nameChar hne hchars
  have hslug := plainName_of_nameChar hne hchars
  have hnames : ∀ n ∈ [forksDir, route.slug, gameDir], Path.IsName n := by
    simp only [List.forall_mem_cons, List.not_mem_nil, false_implies, implies_true, and_true]
    exact ⟨plainName_forksDir.1, hslug.1, by decide⟩
  have hgame : fs'.isDirectory ((o.exportRoot.join (Layout.fork route.slug)).join gameDir) = true := by
    have hjoin : (o.exportRoot.join (Layout.fork route.slug)).join gameDir =
        o.exportRoot.join (Text.joinWith "/" [forksDir, route.slug, gameDir]) :=
      Path.join_join (List.cons_ne_nil forksDir [route.slug])
        (fun n hn => hnames n (List.mem_append_left [gameDir] hn)) (by decide) o.exportRoot
    rw [hjoin, FileSystem.isDirectory_join_iff h.wellFormed_after (List.cons_ne_nil _ _) hnames, hroot, h.place_eq]
    exact ⟨hl, h.node?_forkGame hforks hr⟩
  unfold forkSource
  rw [if_neg (by simp [ForkDescriptor.ofRoute, hsafe])]
  exact if_pos hgame

/-- A packager finds in the manifest what the export has recorded, if the manifest is not too long. -/
theorem recordedForks_iff {ds : List ForkDescriptor} : recordedForks fs' o.exportRoot = .ok ds ↔
    (Preparation.settledText fs options now "" p.masterManifest).toUTF8.size ≤ maxDocumentBytes ∧
      ds = p.masterManifest.scope.forks := by
  have hfile := h.fileAt_manifest
  have hplace : fs'.place (o.exportRoot.join exportManifest) = fs.place (options.output.join exportManifest) := by
    rw [place_inBundle clean_manifests.1.inBundle, hroot, ← place_inBundle clean_manifests.1.inBundle, h.place_eq]
  rw [← hplace] at hfile
  have hfound : fs'.isFile (o.exportRoot.join exportManifest) = true := by
    rw [clean_manifests.1.isFile_iff h.wellFormed_after, ← place_inBundle clean_manifests.1.inBundle, hfile]
    exact ⟨hl, rfl⟩
  have hforks : Json.parseBytes forksRecord.read (Preparation.settledText fs options now "" p.masterManifest).toUTF8 =
      .ok p.masterManifest.scope.forks := by
    rw [Preparation.settledText, Json.parseBytes_pretty (by decide) (p.masterManifest.plain_toJson _)]
    exact forks_of_manifest _ _
  unfold recordedForks
  dsimp only
  rw [if_neg (by simp [hfound]), bind_eq_ok]
  constructor
  · rintro ⟨bytes, hread, hds⟩
    obtain ⟨hfit, rfl⟩ := (FileSystem.readWithin_iff hfound hfile).1 hread
    rw [hforks] at hds
    exact ⟨hfit, (pure_eq_ok.1 hds).symm⟩
  · rintro ⟨hfit, rfl⟩
    refine ⟨_, (FileSystem.readWithin_iff hfound hfile).2 ⟨hfit, rfl⟩, ?_⟩
    rw [hforks]
    rfl

/-- The trees that a packager finds are the bundle and the forks of the export. -/
theorem sources_of_delivered (hforks : o.forks = true)
    (hfit : (Preparation.settledText fs options now "" p.masterManifest).toUTF8.size ≤ maxDocumentBytes) :
    sources fs' o = .ok (treesOf o (if p.plan.forks then p.plan.routes else [])) := by
  have hgame := (isDirectory_game_iff h hroot).2 hl
  have htold : p.masterManifest.scope.forks = (if p.plan.forks then p.plan.routes else []).map .ofRoute := by
    change p.forks.map (fun f => ForkDescriptor.ofRoute f.1) = _
    rw [h.settled.forks_eq]
    split
    · rw [List.map_map]
      rfl
    · rfl
  have hrecorded := (recordedForks_iff h hroot hl).2 ⟨hfit, rfl⟩
  rw [htold] at hrecorded
  unfold sources
  dsimp only
  rw [if_neg (by simp [hgame]), if_pos hforks]
  refine bind_eq_ok.2 ⟨_, hrecorded, bind_eq_ok.2 ⟨_, mapM_map_eq_ok ?_, rfl⟩⟩
  intro route hr
  split at hr
  · next hplan => exact forkSource_ofRoute h hroot hl hplan hr
  · cases hr

end

end Package

/-! ## Histories -/

/-- An export, forced or not, that ends well. -/
def Exported (fs fs' : FileSystem) : Prop :=
  ∃ store options reviewers now r, Export.run fs store options reviewers now = (.ok r, fs')

theorem Exported.wellFormed {fs fs' : FileSystem} (h : Exported fs fs') (hw : fs.WellFormed) : fs'.WellFormed := by
  obtain ⟨store, options, reviewers, now, r, h⟩ := h
  by_cases hdry : options.dryRun = true
  · have hsame : (Export.run fs store options reviewers now).2 = fs := Export.files_of_dry_run hdry
    rw [h] at hsame
    rwa [show fs' = fs from hsame]
  · exact (Preparation.delivered_of_run hw (Bool.eq_false_iff.2 hdry) h).wellFormed_after

theorem wellFormed_of_exports {fs fs' : FileSystem} (h : Relation.ReflTransGen Exported fs fs')
    (hw : fs.WellFormed) : fs'.WellFormed := by
  induction h with
  | refl => exact hw
  | tail _ hlast ih => exact hlast.wellFormed ih

/-- A packager takes the bundle and the forks of these routes, in order, and ships nothing else. -/
structure PackagesForks (fs : FileSystem) (o : PackageOptions) (routes : List Route) : Prop where
  sources_eq : Package.sources fs o = .ok (Package.treesOf o routes)
  keys_eq : ∀ rs fs', Package.run fs o = (.ok rs, fs') →
    rs.map (·.key) = (none :: routes.map fun r => some r.slug) ×ˢ o.targets.map (·.name)

variable {fs mid fs' : FileSystem} {store : Store} {options : ExportOptions} {reviewers : Reviewers BundleView}
  {now : Timestamp} {r : ExportResult} {o : PackageOptions} {targets : List Package.CheckedTarget}

/-- After any number of exports, a packager takes the forks that the last one planned if and only if its path leads
to the bundle; if it does not, no game is found, and nothing is written. A path that does not go up leads there. -/
theorem packages_iff_leads (hw : fs.WellFormed) (hhistory : Relation.ReflTransGen Exported fs mid)
    (hreal : options.dryRun = false) (h : Export.run mid store options reviewers now = (.ok r, fs'))
    (hroot : fs'.place o.exportRoot = fs'.place options.output) (hforks : o.forks = true)
    (hfit : r.manifest.toUTF8.size ≤ maxDocumentBytes) (htargets : Package.checkTargets o.targets = .ok targets) :
    (PackagesForks fs' o (if r.prepared.plan.forks then r.prepared.plan.routes else []) ↔ fs'.Leads o.exportRoot) ∧
    (¬fs'.Leads o.exportRoot → Package.run fs' o =
      (.error (.packaging ("missing game tree at " ++ (o.exportRoot.join gameDir).text)), fs')) ∧
    (".." ∉ o.exportRoot.segments → fs'.Leads o.exportRoot) ∧
    (r.prepared.plan.forks = true ↔
      2 ≤ r.prepared.plan.routes.length ∧
        (options.routeMode = .forks ∨ options.routeMode = .both ∨ options.routeMode = .auto)) := by
  have hw' := wellFormed_of_exports hhistory hw
  have hd := Preparation.delivered_of_run hw' hreal h
  have hmanifest := Preparation.manifest_eq_of_run hw' hreal h
  rw [hmanifest] at hfit
  have hmissing (hl : ¬fs'.Leads o.exportRoot) : Package.sources fs' o =
      .error (.packaging ("missing game tree at " ++ (o.exportRoot.join gameDir).text)) :=
    if_pos (by simpa using fun hgame => hl ((Package.isDirectory_game_iff hd hroot).1 hgame))
  refine ⟨⟨fun hpackages => ?_, fun hl => ?_⟩, fun hl => ?_, fun hup => ?_, ?_⟩
  · apply Classical.byContradiction
    intro hl
    cases (hmissing hl).symm.trans hpackages.sources_eq
  · have hsources := Package.sources_of_delivered hd hroot hl hforks hfit
    refine ⟨hsources, fun rs fs'' hrun => ?_⟩
    rw [Package.keys_of_run hsources hrun, Package.treesOf, List.map_cons, List.map_map]
    rfl
  · have hplan : Package.plan fs' o =
        .error (.packaging ("missing game tree at " ++ (o.exportRoot.join gameDir).text)) := by
      unfold Package.plan
      rw [htargets, hmissing hl]
      rfl
    unfold Package.run
    rw [hplan]
  · refine FileSystem.leads_of_directory hd.wellFormed_after hup ?_
    rw [hroot, hd.place_eq]
    exact hd.node?_output
  · rw [hd.settled.plan_eq]
    exact RoutePlan.forks_iff

/-- One scene that two viewpoints carry. -/
def voicesShelf : Shelf :=
  (({} : Shelf).addProject { id := "p", scenes := ["s"] }).addScene { id := "s", povs := [.string "a", .string "b"] }

/-- The output behind a directory of the bundle that is pruned. -/
def voicesOptions : ExportOptions :=
  { project := "p", output := ⟨"game/scenes/../.."⟩, assets := ⟨"assets"⟩, force := true }

def voicesPackage : PackageOptions :=
  { slug := "p", title := "p", exportRoot := voicesOptions.output, dist := ⟨"d"⟩, targets := [⟨"web", ["web"]⟩] }

set_option maxRecDepth 100000 in
/-- The packager does not find the bundle on the path on which it was just exported, as pruning has removed a directory
on this path; on a path that does not go up it takes the bundle and both forks. -/
theorem forks_not_found_through_pruned_directory :
    ({} : FileSystem).WellFormed ∧ ∃ r fs',
      Export.run {} (.memory voicesShelf) voicesOptions {} default = (.ok r, fs') ∧
      r.manifest.toUTF8.size ≤ maxDocumentBytes ∧ (Package.checkTargets voicesPackage.targets).isOk = true ∧
      r.prepared.plan.forks = true ∧ r.prepared.plan.routes.map (·.slug) = ["a", "b"] ∧
      ¬PackagesForks fs' voicesPackage r.prepared.plan.routes ∧
      Package.run fs' voicesPackage =
        (.error (.packaging "missing game tree at game/scenes/../../game"), fs') ∧
      PackagesForks fs' { voicesPackage with exportRoot := ⟨"."⟩ } r.prepared.plan.routes := by
  have hw : ({} : FileSystem).WellFormed := by decide +kernel
  have htargets : (Package.checkTargets voicesPackage.targets).isOk = true := by decide +kernel
  have hreal : (match Export.run {} (.memory voicesShelf) voicesOptions {} default with
      | (.ok r, fs') =>
        r.prepared.plan.forks && decide (r.prepared.plan.routes.map (·.slug) = ["a", "b"]) &&
          !fs'.isDirectory voicesOptions.output && decide (r.manifest.toUTF8.size ≤ maxDocumentBytes)
      | (.error _, _) => false) = true := by
    decide +kernel
  split at hreal
  · next r fs' hrun =>
    simp only [Bool.and_eq_true, Bool.not_eq_true', decide_eq_true_eq] at hreal
    obtain ⟨⟨⟨hforks, hslugs⟩, hgone⟩, hfit⟩ := hreal
    cases hchecked : Package.checkTargets voicesPackage.targets with
    | error e =>
      rw [hchecked] at htargets
      cases htargets
    | ok targets =>
      have hd := Preparation.delivered_of_run hw rfl hrun
      have hthere := packages_iff_leads (o := voicesPackage) hw .refl rfl hrun rfl rfl hfit hchecked
      have hhere := packages_iff_leads (o := { voicesPackage with exportRoot := ⟨"."⟩ }) hw .refl rfl hrun
        (by rw [hd.place_eq, hd.place_eq]; decide) rfl hfit hchecked
      rw [if_pos hforks] at hthere hhere
      have hlost : ¬fs'.Leads voicesPackage.exportRoot := by
        intro hl
        have hdir : fs'.isDirectory voicesOptions.output = true :=
          FileSystem.isDirectory_iff.2 ⟨hl.locate (by decide), by rw [hd.place_eq]; exact hd.node?_output⟩
        rw [hgone] at hdir
        cases hdir
      exact ⟨hw, r, fs', hrun, hfit, rfl, hforks, hslugs, fun h => hlost (hthere.1.1 h), hthere.2.1 hlost,
        hhere.1.2 (hhere.2.2.1 (by decide))⟩
  · cases hreal

end StoryPress
