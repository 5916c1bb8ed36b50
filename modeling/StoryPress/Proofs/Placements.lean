import Mathlib.Data.List.Forall2
import StoryPress.Proofs.Routes

/-!
# From placements to labels

* `Store.Filed`: documents in memory are kept under their own ids, as adding them one by one does;
* `loaded_of_load`: every placed scene is loaded once, under its trimmed id;
* `labels_get?`: the label of a scene is found under its id;
* `plays_of_load`: each placement is played under the label of its scene, in order and with repeats;
* `routesOf_members`: a route plays the placements that carry its viewpoint.
-/

namespace StoryPress

/-! ## Stores -/

namespace Shelf

/-- Scenes in memory are kept under their own ids. -/
def Filed (s : Shelf) : Prop := ∀ id scene, s.scenes.get? id = some scene → scene.id = id

theorem filed_empty : Filed {} := by
  intro id scene h
  simp at h

theorem Filed.addScene {s : Shelf} (h : s.Filed) (d : Scene) : (s.addScene d).Filed := by
  intro id scene hs
  rw [Shelf.addScene, OrderedMap.get?_insert] at hs
  split at hs
  · next heq =>
    obtain rfl := Option.some.inj hs
    exact (Std.LawfulEqCmp.eq_of_compare heq).symm
  · exact h id scene hs

theorem Filed.addProject {s : Shelf} (h : s.Filed) (d : Project) : (s.addProject d).Filed := h

theorem Filed.addTimeline {s : Shelf} (h : s.Filed) (d : Timeline) : (s.addTimeline d).Filed := h

theorem Filed.addWorld {s : Shelf} (h : s.Filed) (d : World) : (s.addWorld d).Filed := h

end Shelf

/-- A directory names scenes for their files, whatever id they hold. -/
def Store.Filed : Store → Prop
  | directory _ => True
  | memory shelf => shelf.Filed

theorem Store.Filed.scene_id {store : Store} (h : store.Filed) {fs : FileSystem} {id : String} {s : Scene}
    (hs : store.scene fs id = .ok s) : s.id = id := by
  cases store with
  | directory root =>
    obtain ⟨⟨d, p⟩, -, hs⟩ := bind_eq_ok.1 hs
    obtain rfl := pure_eq_ok.1 hs
    rfl
  | memory shelf =>
    simp only [Store.scene] at hs
    cases hg : shelf.scenes.get? id with
    | none =>
      rw [hg] at hs
      cases hs
    | some d =>
      rw [hg] at hs
      obtain rfl := Except.ok.inj hs
      exact h id _ hg

/-! ## Loading -/

namespace Collected

variable {fs : FileSystem} {store : Store} {options : ExportOptions}

theorem ids_of_loadScenes (h : store.Filed) {ids : List String} {scenes : List Scene}
    (hl : loadScenes fs store ids = .ok scenes) : scenes.map (·.id) = ids := by
  induction ids generalizing scenes with
  | nil =>
    obtain rfl := Except.ok.inj hl
    rfl
  | cons id ids ih =>
    obtain ⟨s, hs, hl⟩ := bind_eq_ok.1 hl
    obtain ⟨rest, hrest, hl⟩ := bind_eq_ok.1 hl
    obtain rfl := pure_eq_ok.1 hl
    rw [List.map_cons, h.scene_id hs, ih hrest]

/-- Adds an id that is not there yet. -/
def addId (ids : List String) (id : String) : List String := if ids.contains id then ids else ids ++ [id]

theorem mem_addId {ids : List String} {id x : String} : x ∈ addId ids id ↔ x ∈ ids ∨ x = id := by
  unfold addId
  split
  · next h =>
    have hmem : id ∈ ids := by simpa using h
    constructor
    · exact .inl
    · rintro (hx | rfl)
      · exact hx
      · exact hmem
  · simp

theorem nodup_addId {ids : List String} (h : ids.Nodup) (id : String) : (addId ids id).Nodup := by
  unfold addId
  split
  · exact h
  · next hnew =>
    refine List.nodup_append.2 ⟨h, by simp, ?_⟩
    rintro a ha b hb rfl
    exact hnew (by simpa [List.mem_singleton.1 hb] using ha)

theorem foldl_addId (ids new : List String) (h : ids.Nodup) :
    (new.foldl addId ids).Nodup ∧ ∀ x, x ∈ new.foldl addId ids ↔ x ∈ ids ∨ x ∈ new := by
  induction new generalizing ids with
  | nil => exact ⟨h, by simp⟩
  | cons id new ih =>
    obtain ⟨hn, hmem⟩ := ih (addId ids id) (nodup_addId h id)
    refine ⟨hn, fun x => ?_⟩
    rw [List.foldl_cons, hmem, mem_addId, List.mem_cons, or_assoc]

/-- The ids of a sequence are those of its placements, each once. -/
theorem sceneIds_spec (sequence : List Placement) :
    (sceneIds sequence).Nodup ∧ ∀ p ∈ sequence, Text.trim p.scene ∈ sceneIds sequence := by
  have hfold : sceneIds sequence = (sequence.map fun p => Text.trim p.scene).foldl addId [] := by
    rw [List.foldl_map]
    rfl
  obtain ⟨hn, hmem⟩ := foldl_addId [] (sequence.map fun p => Text.trim p.scene) List.nodup_nil
  rw [hfold]
  refine ⟨hn, fun p hp => (hmem _).2 (.inr ?_)⟩
  exact List.mem_map.2 ⟨p, hp, rfl⟩

/-- An export loads the scenes that are placed, each once and under its trimmed id. -/
theorem ids_of_load (hs : store.Filed) {docs : Collected} (h : load fs store options = .ok docs) :
    docs.scenes.map (·.id) = sceneIds docs.sequence := by
  obtain ⟨project, -, h⟩ := bind_eq_ok.1 h
  obtain ⟨world, -, h⟩ := bind_eq_ok.1 h
  obtain ⟨timeline, -, h⟩ := bind_eq_ok.1 h
  obtain ⟨scenes, hscenes, h⟩ := bind_eq_ok.1 h
  obtain rfl := pure_eq_ok.1 h
  exact ids_of_loadScenes hs hscenes

end Collected

/-! ## Labels of scenes -/

namespace Compilation

variable {fs : FileSystem} {index : AssetIndex}

theorem ids_of_addScene {c d : Compilation} {s : Scene} (h : addScene fs index c s = .ok d) :
    d.scenes.map (·.sceneId) = c.scenes.map (·.sceneId) ++ [s.id] := by
  have hlabel : (c.addLabel s).scenes.map (·.sceneId) = c.scenes.map (·.sceneId) ++ [s.id] := by
    simp [addLabel]
  rw [addScene_eq] at h
  refine invariant_of_foldlM (P := fun d => d.scenes.map (·.sceneId) = c.scenes.map (·.sceneId) ++ [s.id])
    ?_ hlabel h
  intro e node e' _ he hr
  obtain ⟨-, rfl⟩ | ⟨_, _, _, _, -, -, rfl⟩ := registerNode_eq_ok hr
  · exact he
  · exact he

theorem ids_of_ofScenes {scenes : List Scene} {c : Compilation} (h : ofScenes fs index scenes = .ok c) :
    c.scenes.map (·.sceneId) = scenes.map (·.id) := by
  have hfold (scenes : List Scene) : ∀ b d : Compilation, scenes.foldlM (addScene fs index) b = .ok d →
      d.scenes.map (·.sceneId) = b.scenes.map (·.sceneId) ++ scenes.map (·.id) := by
    induction scenes with
    | nil =>
      intro b d hd
      rw [List.foldlM_nil, pure_eq_ok] at hd
      simp [hd]
    | cons s scenes ih =>
      intro b d hd
      rw [List.foldlM_cons, bind_eq_ok] at hd
      obtain ⟨e, he, hd⟩ := hd
      rw [ih e d hd, ids_of_addScene he, List.append_assoc]
      rfl
  obtain ⟨d, hd, hc⟩ := bind_eq_ok.1 h
  obtain rfl := pure_eq_ok.1 hc
  have := hfold scenes {} d hd
  simpa using this

/-- Among distinct ids, the label of each scene is found under its id. -/
theorem labels_get? {scenes : List Scene} {c : Compilation} (h : ofScenes fs index scenes = .ok c)
    (hn : (c.scenes.map (·.sceneId)).Nodup) {s : CompiledScene} (hs : s ∈ c.scenes) :
    c.labels.get? s.sceneId = some s.label := by
  refine invariant_of_ofScenes
    (P := fun c : Compilation =>
      (c.scenes.map CompiledScene.sceneId).Nodup → ∀ s ∈ c.scenes, c.labels.get? s.sceneId = some s.label)
    (by simp) ?_ ?_ (fun _ _ hc => hc) h hn s hs
  · intro c t hc hn s hs
    have hids : (c.addLabel t).scenes.map (·.sceneId) = c.scenes.map (·.sceneId) ++ [t.id] := by simp [addLabel]
    rw [hids, List.nodup_append] at hn
    simp only [addLabel, OrderedMap.get?_insert]
    rcases List.mem_append.1 hs with hs | hs
    · have hne : s.sceneId ≠ t.id := hn.2.2 _ (List.mem_map.2 ⟨s, hs, rfl⟩) _ (by simp)
      rw [if_neg fun heq => hne (Std.LawfulEqCmp.eq_of_compare heq)]
      exact hc hn.1 s hs
    · obtain rfl := List.mem_singleton.1 hs
      simp
  · intro c c' t node _ _ hc hr
    obtain ⟨-, rfl⟩ | ⟨_, _, _, _, -, -, rfl⟩ := registerNode_eq_ok hr
    · exact hc
    · exact hc

/-- The placement is played under the label of its scene. -/
def Plays (c : Compilation) (placement : Placement) (played : PlacedScene) : Prop :=
  played.placed = .ofPlacement placement ∧
    ∃ s ∈ c.scenes, s.sceneId = Text.trim placement.scene ∧ played.sceneId = s.sceneId ∧ played.label = s.label

/-- A placement with the label and the viewpoints of its scene. -/
def play? (docs : Collected) (c : Compilation) (placement : Placement) : Option PlacedScene :=
  (docs.scenes.find? (·.id == Text.trim placement.scene)).bind fun s =>
    (c.labels.get? s.id).map fun label => ⟨s.id, label, .ofScene s, .ofPlacement placement⟩

theorem placed_eq (docs : Collected) (c : Compilation) : c.placed docs = docs.sequence.filterMap (c.play? docs) := by
  unfold placed
  apply List.filterMap_congr
  intro placement _
  unfold play?
  cases docs.scenes.find? (·.id == Text.trim placement.scene) <;> rfl

variable {store : Store} {options : ExportOptions} {docs : Collected} {c : Compilation}

theorem exists_play? (hfiled : store.Filed) (hload : Collected.load fs store options = .ok docs)
    (h : ofScenes fs index docs.scenes = .ok c) {placement : Placement} (hp : placement ∈ docs.sequence) :
    ∃ played, c.play? docs placement = some played ∧ c.Plays placement played := by
  have hids : docs.scenes.map (·.id) = Collected.sceneIds docs.sequence := Collected.ids_of_load hfiled hload
  obtain ⟨hnodup, hmem⟩ := Collected.sceneIds_spec docs.sequence
  have hid : Text.trim placement.scene ∈ docs.scenes.map (·.id) := hids ▸ hmem placement hp
  cases hfind : docs.scenes.find? (·.id == Text.trim placement.scene) with
  | none =>
    obtain ⟨s, hs, heq⟩ := List.mem_map.1 hid
    exact absurd (List.find?_eq_none.1 hfind s hs) (by simp [heq])
  | some d =>
    have heq : d.id = Text.trim placement.scene := by simpa using List.find?_some hfind
    have hcompiled := ids_of_ofScenes h
    have hd : d.id ∈ c.scenes.map (·.sceneId) := by
      rw [hcompiled]
      exact List.mem_map.2 ⟨d, List.mem_of_find?_eq_some hfind, rfl⟩
    obtain ⟨s, hs, hsd⟩ := List.mem_map.1 hd
    have hlabel := labels_get? h (by rw [hcompiled, hids]; exact hnodup) hs
    refine ⟨⟨d.id, s.label, .ofScene d, .ofPlacement placement⟩, ?_, rfl, s, hs, hsd.trans heq, hsd.symm, rfl⟩
    simp [play?, hfind, ← hsd, hlabel]

/-- Every placement of an export is played, in order and as often as it is placed. -/
theorem plays_of_load (hfiled : store.Filed) (hload : Collected.load fs store options = .ok docs)
    (h : ofScenes fs index docs.scenes = .ok c) : List.Forall₂ c.Plays docs.sequence (c.placed docs) := by
  have hall : ∀ sequence : List Placement, (∀ p ∈ sequence, p ∈ docs.sequence) →
      List.Forall₂ c.Plays sequence (sequence.filterMap (c.play? docs)) := by
    intro sequence
    induction sequence with
    | nil => exact fun _ => .nil
    | cons p sequence ih =>
      intro hmem
      obtain ⟨played, hplayed, hplays⟩ := exists_play? hfiled hload h (hmem p (by simp))
      rw [List.filterMap_cons_some hplayed]
      exact .cons hplays (ih fun q hq => hmem q (by simp [hq]))
  rw [placed_eq]
  exact hall docs.sequence fun _ => id

end Compilation

/-! ## Members of routes -/

namespace RoutePlan

/-- A route plays what carries its viewpoint, in order, and its entry is a label of the book. -/
theorem routesOf_members (sequence : List PlacedScene) (vs : List Viewpoint) (slugs : List String)
    (book : LabelBook) : ∀ r ∈ (routesOf sequence vs slugs book).1,
      r.labels = (sequence.filter (·.carries r.viewpoint)).map (·.label) ∧
        r.sceneIds = (sequence.filter (·.carries r.viewpoint)).map (·.sceneId) ∧
        ∀ c ∈ r.entry.toList, Naming.NameChar c := by
  intro r hr
  have hmade := madeOf_of_mem r hr
  obtain ⟨earlier, hentry⟩ := hmade.entry_eq
  refine ⟨hmade.labels_eq, hmade.sceneIds_eq, ?_⟩
  rw [hentry]
  exact fun c => LabelBook.nameChar_of_mem_allocate (Naming.nameChar_of_all (by decide))

end RoutePlan

theorem Preparation.loaded_of_run {fs : FileSystem} {store : Store} {options : ExportOptions}
    {reviewers : Reviewers BundleView} {p : Preparation} (h : run fs store options reviewers = .ok p) :
    Collected.load fs store options = .ok p.docs :=
  (run_eq_ok_iff.1 h).loaded

end StoryPress
