import StoryPress.Proofs.Beside
import StoryPress.Proofs.Delivered
import StoryPress.Proofs.Pictures

/-!
# What an export reads again

An export changes files in its output alone. What it reads from beside the output it reads again afterwards, so it
settles the same a second time.

* `AssetIndex.resolve_congr`: a reference stands for the same file where a walk and its own path meet the same;
* `Compilation.ofScenes_again`: scenes are compiled as before;
* `Collected.load_again`, `Collected.stampInputs_congr`: documents are read as before, and their digests;
* `Preparation.Delivered.beside`: an export changes no file beside its output;
* `Preparation.run_again`: so, where what it reads is undisturbed, it settles the same again.
-/

namespace StoryPress

open FileSystem (SameFile)

/-! ## Pictures -/

namespace AssetIndex

variable {fs fs' : FileSystem} {root : Path} {index : AssetIndex}

theorem walked_eq (fs : FileSystem) (root : Path) :
    walked fs root = (fs.walkedFiles root).filterMap fun (p, _) =>
      if p.isImage then (Path.slashBelow? root p).map fun relative => (relative, p) else none := by
  unfold walked FileSystem.walkedFiles
  split
  · unfold picturesBelow
    cases fs.walkFiles root <;> rfl
  · rfl

theorem build_eq_of_walked (h : fs'.walkedFiles root = fs.walkedFiles root) : build fs' root = build fs root := by
  rw [build_eq, build_eq, walked_eq, walked_eq, h]

theorem scanForStem_eq (fs : FileSystem) (index : AssetIndex) (reference : String) :
    scanForStem fs index reference =
      let wanted := Text.lower (Path.splitName (lastSegment reference)).1
      if wanted.isEmpty then none
      else
        match (fs.walkedFiles index.root).find? fun (p, _) =>
          p.isImage && p.stem?.map Text.lower == some wanted with
        | none => none
        | some (p, _) =>
          (Path.slashBelow? index.root p).map fun relative => ⟨relative, p, .directoryScan, none⟩ := by
  unfold scanForStem FileSystem.walkedFiles
  by_cases hd : fs.isDirectory index.root = true
  · simp only [hd, Bool.not_true, Bool.false_or, if_true]
    cases fs.walkFiles index.root <;> rfl
  · simp [hd, Except.toOption]

theorem scanForStem_congr (h : fs'.walkedFiles index.root = fs.walkedFiles index.root) (reference : String) :
    scanForStem fs' index reference = scanForStem fs index reference := by
  rw [scanForStem_eq, scanForStem_eq, h]

/-- A reference stands for the same file where the walk meets the same files and its own path the same file. -/
theorem resolve_congr (hwalk : fs'.walkedFiles index.root = fs.walkedFiles index.root) {kind : AssetKind}
    {raw : String}
    (hfile : ∀ reference, Reference.normalize raw index.root = some reference →
      SameFile fs fs' (index.root.join reference)) :
    index.resolve fs' kind raw = index.resolve fs kind raw := by
  unfold resolve
  cases hr : Reference.normalize raw index.root with
  | none => rfl
  | some reference =>
    have hpath : resolvePath fs' index reference = resolvePath fs index reference := by
      simp only [resolvePath, (hfile reference hr).isFile_eq, scanForStem_congr hwalk]
    simp only [hpath]

end AssetIndex

/-! ## Compiled scenes -/

theorem AssetOrigin.load_congr {fs fs' : FileSystem} {picture : Path}
    (h : SameFile fs fs' (pathFor picture)) : load fs' picture = load fs picture := by
  unfold load
  dsimp only
  rw [h.isFile_eq]
  split
  · rfl
  · next hfile => rw [h.readWithin_eq (by simpa using hfile)]

namespace AssetOrigin

theorem never_up_origin {relative : String} (hup : ".." ∉ Text.pieces '/' relative) :
    ".." ∉ Text.pieces '/' (relative ++ Layout.originSuffix) := by
  obtain ⟨front, last, hpieces, hadd⟩ := Text.pieces_append_ending relative
  rw [hadd _ (by decide)]
  simp only [hpieces, List.mem_append, not_or, List.mem_singleton] at hup ⊢
  refine ⟨hup.1, fun hlast => ?_⟩
  have hlength := congrArg (fun s => s.toList.length) hlast
  simp [Layout.originSuffix] at hlength

/-- The file that tells the origin of a picture lies beside it. -/
theorem pathFor_join (root : Path) {relative : String} (hrel : Path.startsAtRoot relative = false)
    (hup : ".." ∉ Text.pieces '/' relative) :
    ∃ beside, pathFor (root.join relative) = root.join beside ∧ Path.startsAtRoot beside = false ∧
      ".." ∉ Text.pieces '/' beside := by
  have hbeside : Path.startsAtRoot (relative ++ Layout.originSuffix) = false := by
    cases hcs : relative.toList with
    | nil => simp [Path.startsAtRoot, hcs, Layout.originSuffix]
    | cons c cs => simpa [Path.startsAtRoot, hcs] using hrel
  refine ⟨relative ++ Layout.originSuffix, ?_, hbeside, never_up_origin hup⟩
  rw [pathFor, Path.append, Path.join_eq_front hrel, Path.join_eq_front hbeside]
  simp [String.append_assoc]

end AssetOrigin

namespace AssetCatalog

variable {fs fs' : FileSystem} {index : AssetIndex}

theorem usageOf_again {kind : AssetKind} {logical name : String} {found : ResolvedAsset} {u : AssetUsage}
    (hfound : SameFile fs fs' found.path) (hbeside : SameFile fs fs' (AssetOrigin.pathFor found.path))
    (h : usageOf fs kind logical name found = .ok u) : usageOf fs' kind logical name found = .ok u := by
  obtain ⟨bytes, hr, h⟩ := bind_eq_ok.1 h
  refine bind_eq_ok.2 ⟨bytes, hfound.readWithin hr, ?_⟩
  rw [← h, AssetOrigin.load_congr hbeside]

theorem mem_register {c : AssetCatalog} {r : Registration} (h : r ∈ c.registrations) (kind : AssetKind)
    (reference scene : String) : r ∈ (c.register fs index kind reference scene).1.registrations := by
  have haliasFor (relative : String) : (c.aliasFor kind relative).2.registrations = c.registrations := by
    unfold aliasFor
    split <;> rfl
  have hstep := registering fs index c kind reference scene
  generalize c.register fs index kind reference scene = after at hstep ⊢
  cases hstep with
  | known => exact h
  | missing => exact List.mem_append_left _ h
  | unread => rwa [haliasFor]
  | found => exact List.mem_append_left _ (by rwa [haliasFor])

/-- A reference that stands for the same file is registered as before, if what is read of the file is the
same. -/
theorem register_again {c : AssetCatalog} {kind : AssetKind} {reference scene : String}
    {result : AssetToken × List ExportWarning}
    (hresolve : index.resolve fs' kind (Text.trim reference) = index.resolve fs kind (Text.trim reference))
    (hread : ∀ found u, index.resolve fs kind (Text.trim reference) = some found →
      ⟨kind, Text.trim reference, some u⟩ ∈ (c.register fs index kind reference scene).1.registrations →
      u.relative = found.relative →
      SameFile fs fs' found.path ∧ SameFile fs fs' (AssetOrigin.pathFor found.path))
    (h : (c.register fs index kind reference scene).2 = .ok result) :
    c.register fs' index kind reference scene = c.register fs index kind reference scene := by
  unfold register at h hread ⊢
  dsimp only at h hread ⊢
  rw [hresolve]
  cases hf : c.find? kind (Text.trim reference) with
  | some r => rfl
  | none =>
    cases hr : index.resolve fs kind (Text.trim reference) with
    | none => rfl
    | some found =>
      simp only [hf, hr] at h hread ⊢
      cases hu : usageOf fs kind (Text.trim reference) (c.aliasFor kind found.relative).1 found with
      | error e =>
        rw [hu] at h
        cases h
      | ok u =>
        simp only [hu] at hread
        obtain ⟨-, -, hrel, -⟩ := usageOf_eq_ok hr hu
        obtain ⟨hfile, hbeside⟩ := hread found u rfl (List.mem_append_right _ (List.mem_singleton.2 rfl)) hrel
        rw [usageOf_again hfile hbeside hu]

end AssetCatalog

/-- Steps that succeed in one fold succeed in another one that does the same where a fact holds afterwards; the
fact holds before a step if it holds after it. -/
theorem foldlM_again {ε σ α : Type} {f g : σ → α → Except ε σ} {Q : σ → Prop} {as : List α}
    (back : ∀ a ∈ as, ∀ s s', f s a = .ok s' → Q s' → Q s)
    (again : ∀ a ∈ as, ∀ s s', f s a = .ok s' → Q s' → g s a = .ok s') {s t : σ} (h : as.foldlM f s = .ok t)
    (hq : Q t) : as.foldlM g s = .ok t ∧ Q s := by
  induction as generalizing s with
  | nil =>
    rw [List.foldlM_nil, pure_eq_ok] at h
    subst h
    exact ⟨rfl, hq⟩
  | cons a as ih =>
    rw [List.foldlM_cons, bind_eq_ok] at h
    obtain ⟨s', hs', h⟩ := h
    obtain ⟨hrest, hq'⟩ := ih (fun b hb => back b (by simp [hb])) (fun b hb => again b (by simp [hb])) h
    refine ⟨?_, back a (by simp) s s' hs' hq'⟩
    rw [List.foldlM_cons, bind_eq_ok]
    exact ⟨s', again a (by simp) s s' hs' hq', hrest⟩

namespace Compilation

variable {fs fs' : FileSystem} {index : AssetIndex} {site : Location} {root : Path}

/-- A picture that a path of its own tells, and the file that tells its origin, are not at the site. -/
def Clear (fs : FileSystem) (site : Location) (relative : String) : Prop :=
  Path.startsAtRoot relative = true →
    ¬site <+: fs.place ⟨relative⟩ ∧ ¬site <+: fs.place (AssetOrigin.pathFor ⟨relative⟩)

/-- The pictures of a compilation, and their origins, are read from files beside the site. -/
def ReadsBeside (fs : FileSystem) (site : Location) (c : Compilation) : Prop :=
  ∀ r ∈ c.catalog.registrations, ∀ u, r.usage = some u → Clear fs site u.relative

theorem readsBeside_of_registerNode {scene : String} {c c' : Compilation} {node : SceneNode}
    (h : registerNode fs index scene c node = .ok c') (hc : c'.ReadsBeside fs site) : c.ReadsBeside fs site := by
  obtain ⟨-, rfl⟩ | ⟨kind, reference, token, warnings, -, -, rfl⟩ := registerNode_eq_ok h
  · exact hc
  · exact fun r hr => hc r (AssetCatalog.mem_register hr kind reference scene)

theorem registerNode_congr {scene : String} {c : Compilation} {node : SceneNode}
    (h : ∀ kind reference, node.picture? = some (kind, reference) →
      c.catalog.register fs' index kind reference scene = c.catalog.register fs index kind reference scene) :
    registerNode fs' index scene c node = registerNode fs index scene c node := by
  cases node with
  | background reference => simp only [registerNode, h .background reference rfl]
  | portrait reference => simp only [registerNode, h .portrait reference rfl]
  | line | choice | jump | unsupported => rfl

/-- No picture is looked for at the site by a path of its own. -/
def LooksBeside (fs : FileSystem) (site : Location) (root : Path) (scenes : List Scene) : Prop :=
  ∀ s ∈ scenes, ∀ node ∈ SceneNode.ofScene s, ∀ kind reference, node.picture? = some (kind, reference) →
    ∀ rest, Reference.normalize (Text.trim reference) root = some rest → Path.startsAtRoot rest = true →
      ¬site <+: fs.place ⟨rest⟩

section
variable (h : fs.Beside site fs') (hs : fs.Steady fs' root) (hout : ∀ ns, ¬site <+: fs.place root ++ ns)
include h hs hout

theorem sameFile_below {relative : String} (hrel : Path.startsAtRoot relative = false)
    (hup : ".." ∉ Text.pieces '/' relative) : SameFile fs fs' (root.join relative) := by
  refine h.sameFile_join hs hrel hup ?_
  rw [Layout.place_inBundle ⟨hrel, hup⟩]
  exact hout _

theorem register_again {c : AssetCatalog} {kind : AssetKind} {reference scene : String}
    {result : AssetToken × List ExportWarning}
    (hlook : ∀ rest, Reference.normalize (Text.trim reference) root = some rest → Path.startsAtRoot rest = true →
      ¬site <+: fs.place ⟨rest⟩)
    (hr : (c.register fs (.build fs root) kind reference scene).2 = .ok result)
    (hread : ∀ r ∈ (c.register fs (.build fs root) kind reference scene).1.registrations,
      ∀ u, r.usage = some u → Clear fs site u.relative) :
    c.register fs' (.build fs root) kind reference scene = c.register fs (.build fs root) kind reference scene := by
  refine AssetCatalog.register_again (AssetIndex.resolve_congr ?_ ?_) ?_ hr
  · rw [AssetIndex.root_build]
    exact h.walkedFiles_eq hs hout
  · intro rest hrest
    rw [AssetIndex.root_build] at hrest ⊢
    have hup := (Reference.normalize_eq_some hrest).1
    by_cases habs : Path.startsAtRoot rest = true
    · rw [Path.join_of_startsAtRoot habs]
      exact h.sameFile (.inl hup) (hlook rest hrest habs)
    · exact sameFile_below h hs hout (by simpa using habs) hup
  · intro found u hfound hmem hu
    have hclear : Clear fs site found.relative := hu ▸ hread _ hmem u rfl
    obtain ⟨rest, hrest, hby⟩ := AssetIndex.foundBy_of_resolve h.before h.before hfound
    obtain ⟨hpath, hup⟩ : found.path = root.join found.relative ∧ ".." ∉ Text.pieces '/' found.relative := by
      rcases hby with ⟨-, hrel', hp⟩ | ⟨-, hc⟩
      · rw [hp, hrel']
        exact ⟨rfl, (Reference.normalize_eq_some hrest).1⟩
      · exact ⟨hc.path_eq, hc.never_up⟩
    rw [hpath]
    by_cases habs : Path.startsAtRoot found.relative = true
    · obtain ⟨hfile, horigin⟩ := hclear habs
      rw [Path.join_of_startsAtRoot habs]
      exact ⟨h.sameFile (.inl hup) hfile, h.sameFile (.inl (AssetOrigin.never_up_origin hup)) horigin⟩
    · have hrel : Path.startsAtRoot found.relative = false := by simpa using habs
      obtain ⟨beside, hbeside, hrel', hup'⟩ := AssetOrigin.pathFor_join root hrel hup
      rw [hbeside]
      exact ⟨sameFile_below h hs hout hrel hup, sameFile_below h hs hout hrel' hup'⟩

/-- Scenes are compiled as before where the pictures are read from files beside the site. -/
theorem ofScenes_again {scenes : List Scene} (hlook : LooksBeside fs site root scenes) {c : Compilation}
    (hc : ofScenes fs (.build fs root) scenes = .ok c) (hread : c.ReadsBeside fs site) :
    ofScenes fs' (.build fs' root) scenes = .ok c := by
  rw [AssetIndex.build_eq_of_walked (h.walkedFiles_eq hs hout)]
  obtain ⟨d, hd, hc⟩ := bind_eq_ok.1 hc
  obtain rfl := pure_eq_ok.1 hc
  have node (s : Scene) (hmem : s ∈ scenes) (n : SceneNode) (hn : n ∈ SceneNode.ofScene s) (c c' : Compilation)
      (hc : registerNode fs (.build fs root) s.id c n = .ok c') (hrel : c'.ReadsBeside fs site) :
      registerNode fs' (.build fs root) s.id c n = .ok c' := by
    rw [← hc]
    refine registerNode_congr fun kind reference hpicture => ?_
    obtain ⟨hnone, -⟩ | ⟨kind', reference', token, warnings, hpicture', hr, rfl⟩ := registerNode_eq_ok hc
    · rw [hnone] at hpicture
      cases hpicture
    · obtain ⟨rfl, rfl⟩ := Prod.mk.inj (Option.some.inj (hpicture'.symm.trans hpicture))
      exact register_again h hs hout (hlook s hmem n hn _ _ hpicture) hr hrel
  have scene (s : Scene) (hmem : s ∈ scenes) (c c' : Compilation)
      (hc : addScene fs (.build fs root) c s = .ok c') (hrel : c'.ReadsBeside fs site) :
      addScene fs' (.build fs root) c s = .ok c' ∧ (c.addLabel s).ReadsBeside fs site := by
    rw [addScene_eq] at hc ⊢
    exact foldlM_again (fun n _ _ _ hr => readsBeside_of_registerNode hr) (node s hmem) hc hrel
  refine bind_eq_ok.2 ⟨d, ?_, rfl⟩
  exact (foldlM_again (Q := ReadsBeside fs site) (fun s hmem c c' hc hrel => (scene s hmem c c' hc hrel).2)
    (fun s hmem c c' hc hrel => (scene s hmem c c' hc hrel).1) hd hread).1

end

end Compilation

/-! ## Documents -/

namespace Store

variable {fs fs' : FileSystem}

theorem load_again {α : Type} {root : Path} {kind : DocumentKind} {id : String} {read : Json.Tree → Json.Reading α}
    {d : α} {p : Path} (h : load fs root kind id read = .ok (d, p)) (hp : SameFile fs fs' p) :
    load fs' root kind id read = .ok (d, p) := by
  unfold load at h ⊢
  cases hf : (documentPath? root kind id).filter fs.isFile with
  | none =>
    rw [hf] at h
    cases h
  | some q =>
    rw [hf] at h
    obtain ⟨bytes, hr, hparse⟩ := bind_eq_ok.1 h
    obtain rfl : q = p := by
      split at hparse
      · exact (Prod.mk.inj (pure_eq_ok.1 hparse)).2
      · cases hparse
    obtain ⟨hpath, hfile⟩ := Option.filter_eq_some_iff.1 hf
    have hf' : (documentPath? root kind id).filter fs'.isFile = some q :=
      Option.filter_eq_some_iff.2 ⟨hpath, by rwa [hp.isFile_eq]⟩
    rw [hf']
    exact bind_eq_ok.2 ⟨bytes, hp.readWithin hr, hparse⟩

/-- A document that is made of what its file holds is made again. -/
theorem made_again {α β : Type} {root : Path} {kind : DocumentKind} {id : String}
    (read : Json.Tree → Json.Reading α) {make : α × Path → β} (source : β → Option Path)
    (hsource : ∀ x, source (make x) = some x.2) {e : β}
    (h : (load fs root kind id read >>= fun x => pure (make x)) = .ok e)
    (hsame : ∀ q, source e = some q → SameFile fs fs' q) :
    (load fs' root kind id read >>= fun x => pure (make x)) = .ok e := by
  obtain ⟨x, hload, he⟩ := bind_eq_ok.1 h
  obtain rfl := pure_eq_ok.1 he
  exact bind_eq_ok.2 ⟨x, load_again hload (hsame x.2 (hsource x)), rfl⟩

variable {store : Store} {id : String}

theorem project_again {d : Project} (h : store.project fs id = .ok d)
    (hsame : ∀ q, d.source = some q → SameFile fs fs' q) : store.project fs' id = .ok d := by
  cases store with
  | directory root => exact made_again Project.read (·.source) (fun _ => rfl) h hsame
  | memory shelf => exact h

theorem timeline_again {d : Timeline} (h : store.timeline fs id = .ok d)
    (hsame : ∀ q, d.source = some q → SameFile fs fs' q) : store.timeline fs' id = .ok d := by
  cases store with
  | directory root => exact made_again Timeline.read (·.source) (fun _ => rfl) h hsame
  | memory shelf => exact h

theorem scene_again {d : Scene} (h : store.scene fs id = .ok d)
    (hsame : ∀ q, d.source = some q → SameFile fs fs' q) : store.scene fs' id = .ok d := by
  cases store with
  | directory root => exact made_again Scene.read (·.source) (fun _ => rfl) h hsame
  | memory shelf => exact h

theorem world_again {d : World} (h : store.world fs id = .ok d)
    (hsame : ∀ q, d.source = some q → SameFile fs fs' q) : store.world fs' id = .ok d := by
  cases store with
  | directory root => exact made_again World.read (·.source) (fun _ => rfl) h hsame
  | memory shelf => exact h

end Store

theorem StampInput.ofDocument_congr {fs fs' : FileSystem} {kind : DocumentKind} {id : String} {source : Option Path}
    {form : Json} (h : ∀ q, source = some q → SameFile fs fs' q) :
    ofDocument fs' kind id source form = ofDocument fs kind id source form := by
  cases source with
  | none => rfl
  | some q =>
    have hq := h q rfl
    unfold ofDocument
    by_cases hfile : fs.isFile q = true
    · have hfile' : fs'.isFile q = true := by rwa [hq.isFile_eq]
      simp only [Option.filter_some, hfile, hfile', if_true, hq.readWithin_eq hfile]
    · have hfile' : ¬fs'.isFile q = true := by rwa [hq.isFile_eq]
      simp only [Option.filter_some, hfile, hfile', Bool.false_eq_true, if_false]

namespace Collected

variable {fs fs' : FileSystem} {store : Store} {options : ExportOptions}

/-- The files of the documents. -/
def sources (c : Collected) : List Path :=
  c.project.source.toList ++ (c.world.bind (·.source)).toList ++ (c.timeline.bind (·.source)).toList ++
    c.scenes.filterMap (·.source)

section
variable {c : Collected} {q : Path}

theorem mem_sources_of_project (hq : c.project.source = some q) : q ∈ c.sources := by simp [sources, hq]

theorem mem_sources_of_world {w : World} (hw : c.world = some w) (hq : w.source = some q) : q ∈ c.sources := by
  simp [sources, hw, hq]

theorem mem_sources_of_timeline {t : Timeline} (ht : c.timeline = some t) (hq : t.source = some q) :
    q ∈ c.sources := by
  simp [sources, ht, hq]

theorem mem_sources_of_scene {s : Scene} (hs : s ∈ c.scenes) (hq : s.source = some q) : q ∈ c.sources :=
  List.mem_append_right _ (List.mem_filterMap.2 ⟨s, hs, hq⟩)

end

theorem chosen_again {α : Type} {load load' : String → Except Failure α} {id : Option String} {d : Option α}
    (h : chosen load id = .ok d) (again : ∀ id e, d = some e → load id = .ok e → load' id = .ok e) :
    chosen load' id = .ok d := by
  cases id with
  | none => exact h
  | some id =>
    simp only [chosen] at h ⊢
    cases he : load id with
    | error failure =>
      rw [he] at h
      cases h
    | ok e =>
      rw [he] at h
      obtain rfl := Except.ok.inj h
      rw [again id e rfl he]
      rfl

theorem loadScenes_again {ids : List String} {scenes : List Scene} (h : loadScenes fs store ids = .ok scenes)
    (hsame : ∀ s ∈ scenes, ∀ q, s.source = some q → SameFile fs fs' q) :
    loadScenes fs' store ids = .ok scenes := by
  induction ids generalizing scenes with
  | nil => exact h
  | cons id ids ih =>
    obtain ⟨s, hs, h⟩ := bind_eq_ok.1 h
    obtain ⟨rest, hrest, h⟩ := bind_eq_ok.1 h
    obtain rfl := pure_eq_ok.1 h
    refine bind_eq_ok.2 ⟨s, Store.scene_again hs (hsame s (by simp)), bind_eq_ok.2 ⟨rest, ?_, rfl⟩⟩
    exact ih hrest fun t ht => hsame t (by simp [ht])

section
variable {docs : Collected} (hsame : ∀ q ∈ docs.sources, SameFile fs fs' q)
include hsame

/-- The documents of an export are read as before where their files are the same. -/
theorem load_again (h : load fs store options = .ok docs) : load fs' store options = .ok docs := by
  obtain ⟨project, hproject, h⟩ := bind_eq_ok.1 h
  obtain ⟨world, hworld, h⟩ := bind_eq_ok.1 h
  obtain ⟨timeline, htimeline, h⟩ := bind_eq_ok.1 h
  obtain ⟨scenes, hscenes, h⟩ := bind_eq_ok.1 h
  obtain rfl := pure_eq_ok.1 h
  have hproject' := Store.project_again hproject fun q hq => hsame q (mem_sources_of_project hq)
  have hworld' := chosen_again hworld fun id w hw hr =>
    Store.world_again hr fun q hq => hsame q (mem_sources_of_world hw hq)
  have htimeline' := chosen_again htimeline fun id t ht hr =>
    Store.timeline_again hr fun q hq => hsame q (mem_sources_of_timeline ht hq)
  have hscenes' := loadScenes_again hscenes fun s hs q hq => hsame q (mem_sources_of_scene hs hq)
  exact bind_eq_ok.2 ⟨project, hproject', bind_eq_ok.2 ⟨world, hworld',
    bind_eq_ok.2 ⟨timeline, htimeline', bind_eq_ok.2 ⟨scenes, hscenes', rfl⟩⟩⟩⟩

/-- The stamps name the same inputs. -/
theorem stampInputs_congr : stampInputs fs' docs = stampInputs fs docs := by
  have hproject : StampInput.ofDocument fs' .project docs.project.id docs.project.source docs.project.toJson =
      StampInput.ofDocument fs .project docs.project.id docs.project.source docs.project.toJson :=
    StampInput.ofDocument_congr fun q hq => hsame q (mem_sources_of_project hq)
  have htimeline : docs.timeline.toList.mapM (fun t => StampInput.ofDocument fs' .timeline t.id t.source t.toJson) =
      docs.timeline.toList.mapM fun t => StampInput.ofDocument fs .timeline t.id t.source t.toJson :=
    mapM_congr fun t ht => StampInput.ofDocument_congr fun q hq =>
      hsame q (mem_sources_of_timeline (Option.mem_toList.1 ht) hq)
  have hworld : docs.world.toList.mapM (fun w => StampInput.ofDocument fs' .world w.id w.source w.toJson) =
      docs.world.toList.mapM fun w => StampInput.ofDocument fs .world w.id w.source w.toJson :=
    mapM_congr fun w hw => StampInput.ofDocument_congr fun q hq =>
      hsame q (mem_sources_of_world (Option.mem_toList.1 hw) hq)
  have hscenes : docs.scenes.mapM (fun s => StampInput.ofDocument fs' .scene s.id s.source s.toJson) =
      docs.scenes.mapM fun s => StampInput.ofDocument fs .scene s.id s.source s.toJson :=
    mapM_congr fun s hs => StampInput.ofDocument_congr fun q hq => hsame q (mem_sources_of_scene hs hq)
  simp only [stampInputs, hproject, htimeline, hworld, hscenes]

end

end Collected

namespace AssetCatalog

/-- The file of a registration is in use. -/
theorem Sound.mem_usages {fs : FileSystem} {index : AssetIndex} {c : AssetCatalog} (h : Sound fs index c)
    {r : Registration} (hr : r ∈ c.registrations) {u : AssetUsage} (hu : r.usage = some u) : u ∈ c.usages := by
  apply mem_usages_of_used
  refine mem_used_of_once hr ?_ hu
  intro t ht hkind hlogical
  have hfind := h.find? ht
  rw [hkind, hlogical, h.find? hr] at hfind
  exact (Option.some.inj hfind).symm

end AssetCatalog

namespace Preparation

open Layout

variable {fs fs' : FileSystem} {options : ExportOptions} {p : Preparation} {now : Timestamp}

/-- An export changes no file beside its output. -/
theorem Delivered.beside (h : Delivered fs fs' options now p) : fs.Beside (fs.place options.output) fs' := by
  obtain ⟨mid, hmid, hpruned⟩ := h.written
  refine ⟨h.wellFormed, h.wellFormed_after, hpruned.here_eq.trans hmid.extends_files.here_eq, fun l hl => ?_⟩
  have hpart (ns : List String) (heq : l = fs.place options.output ++ ns) : False :=
    hl (heq ▸ List.prefix_append _ _)
  rw [h.fileAt_eq fun ms _ ns _ heq => (hpart (ms ++ ns) heq).elim]
  refine overlay_of_ne fun a ha heq => hpart (names a.1) ?_
  rw [← heq, place_inBundle (inBundle_files h.settled h.wellFormed ha)]

/-- What an export reads lies beside its output, and the ways to it are neither opened nor closed. -/
structure Undisturbed (fs fs' : FileSystem) (options : ExportOptions) (p : Preparation) : Prop where
  outside : Outside fs options
  assets : fs.Steady fs' options.assets
  documents : ∀ q ∈ p.docs.sources, ¬fs.place options.output <+: fs.place q ∧ fs.Steady fs' q
  references : Compilation.LooksBeside fs (fs.place options.output) options.assets p.docs.scenes

/-- Paths that do not go up, and references that stay below the asset root, are undisturbed. -/
theorem undisturbed_of_never_up (houtside : Outside fs options) (hassets : ".." ∉ options.assets.segments)
    (hdocuments : ∀ q ∈ p.docs.sources, ¬fs.place options.output <+: fs.place q ∧ ".." ∉ q.segments)
    (hreferences : ∀ s ∈ p.docs.scenes, ∀ node ∈ SceneNode.ofScene s, ∀ kind reference,
      node.picture? = some (kind, reference) → ∀ rest,
      Reference.normalize (Text.trim reference) options.assets = some rest → Path.startsAtRoot rest = false) :
    Undisturbed fs fs' options p where
  outside := houtside
  assets := .inl hassets
  documents q hq := (hdocuments q hq).imp_right .inl
  references s hs node hnode kind reference hpicture rest hrest hroot := by
    rw [hreferences s hs node hnode kind reference hpicture rest hrest] at hroot
    cases hroot

theorem Outside.beside (h : Outside fs options) (ns : List String) :
    ¬fs.place options.output <+: fs.place options.assets ++ ns := by
  intro hin
  rcases List.prefix_or_prefix_of_prefix hin (List.prefix_append _ _) with hin | hin
  · exact h.1 hin
  · exact h.2 hin

/-- A picture with a relative path is never told by a path of its own. -/
theorem readsBeside_of_clean (hp : Settled fs options p) (hw : fs.WellFormed) (hc : p.CleanPictures)
    (site : Location) : p.compiled.ReadsBeside fs site := by
  intro r hr u hu habs
  have hmem := (Compilation.catalogued_ofScenes hp.compiled_eq).sound.mem_usages hr hu
  rw [(clean_relative hp hw hc hmem).inBundle.relative] at habs
  cases habs

/-- An export settles the same again where what it reads is undisturbed. -/
theorem run_again {store : Store} {reviewers : Reviewers BundleView} {dryRun : Bool}
    (hb : fs.Beside (fs.place options.output) fs') (hu : Undisturbed fs fs' options p)
    (hread : p.compiled.ReadsBeside fs (fs.place options.output)) (hp : run fs store options reviewers = .ok p)
    (hout : checkOutput fs' { options with dryRun := dryRun } = .ok ()) :
    run fs' store { options with dryRun := dryRun } reviewers = .ok p := by
  replace hp := run_eq_ok_iff.1 hp
  have hsources : ∀ q ∈ p.docs.sources, SameFile fs fs' q := fun q hq =>
    hb.sameFile (hu.documents q hq).2 (hu.documents q hq).1
  refine run_eq_ok_iff.2 { hp with
    compiled_eq := Compilation.ofScenes_again hb hu.assets hu.outside.beside hu.references hp.compiled_eq hread
    loaded := Collected.load_again hsources hp.loaded
    usable := hout
    inputs_eq := ?_ }
  rw [Collected.stampInputs_congr hsources, hp.inputs_eq]

end Preparation

end StoryPress
