import StoryPress.Bundle.Export
import StoryPress.Proofs.Labels
import StoryPress.Proofs.Outcome

/-!
# Compiled scenes

* `Labelled`: scenes have labels of their own, and the map from ids to labels knows no others;
* `labelled_ofScenes`: compiling gives labelled scenes.
-/

namespace StoryPress

/-- The picture that a node names. -/
def SceneNode.picture? : SceneNode → Option (AssetKind × String)
  | background reference => some (.background, reference)
  | portrait reference => some (.portrait, reference)
  | _ => none

namespace Compilation

variable {fs : FileSystem} {index : AssetIndex}

/-- A node without a picture registers nothing, and one with a picture registers it. -/
theorem registerNode_eq_ok {scene : String} {c c' : Compilation} {node : SceneNode}
    (h : registerNode fs index scene c node = .ok c') :
    node.picture? = none ∧ c' = c ∨
      ∃ kind reference token warnings, node.picture? = some (kind, reference) ∧
        (c.catalog.register fs index kind reference scene).2 = .ok (token, warnings) ∧
        c' = { c with
          catalog := (c.catalog.register fs index kind reference scene).1
          warnings := c.warnings ++ warnings } := by
  have picture (kind : AssetKind) (reference : String)
      (h : (do
        let registered ← (c.catalog.register fs index kind reference scene).2
        return { c with
          catalog := (c.catalog.register fs index kind reference scene).1
          warnings := c.warnings ++ registered.2 }) = Except.ok c') :
      ∃ token warnings, (c.catalog.register fs index kind reference scene).2 = .ok (token, warnings) ∧
        c' = { c with
          catalog := (c.catalog.register fs index kind reference scene).1
          warnings := c.warnings ++ warnings } := by
    obtain ⟨⟨token, warnings⟩, hr, hc⟩ := bind_eq_ok.1 h
    exact ⟨token, warnings, hr, (pure_eq_ok.1 hc).symm⟩
  cases node with
  | background reference =>
    obtain ⟨token, warnings, hr, hc⟩ := picture .background reference h
    exact .inr ⟨_, _, token, warnings, rfl, hr, hc⟩
  | portrait reference =>
    obtain ⟨token, warnings, hr, hc⟩ := picture .portrait reference h
    exact .inr ⟨_, _, token, warnings, rfl, hr, hc⟩
  | line | choice | jump | unsupported => exact .inl ⟨rfl, (Except.ok.inj h).symm⟩

/-- A compilation with the label of a scene, before the pictures of the scene are registered. -/
def addLabel (c : Compilation) (s : Scene) : Compilation :=
  { c with
    book := (c.book.allocate s.id "scene_").2
    labels := c.labels.insert s.id (c.book.allocate s.id "scene_").1
    scenes := c.scenes ++ [⟨s.id, (c.book.allocate s.id "scene_").1, s.title, SceneNode.ofScene s⟩] }

theorem addScene_eq (c : Compilation) (s : Scene) :
    addScene fs index c s = (SceneNode.ofScene s).foldlM (registerNode fs index s.id) (c.addLabel s) := rfl

/-- What a label and a registration keep, compiling keeps. The nodes that are registered are those of a scene
that is there. -/
theorem invariant_of_ofScenes {P : Compilation → Prop} (start : P {})
    (label : ∀ c s, P c → P (c.addLabel s))
    (register : ∀ c c' s node, s ∈ c.scenes → node ∈ s.nodes → P c →
      registerNode fs index s.sceneId c node = .ok c' → P c')
    (warn : ∀ c ws, P c → P { c with warnings := ws })
    {scenes : List Scene} {c : Compilation} (h : ofScenes fs index scenes = .ok c) : P c := by
  obtain ⟨d, hd, hc⟩ := bind_eq_ok.1 h
  rw [← pure_eq_ok.1 hc]
  refine warn d _ (invariant_of_foldlM ?_ start hd)
  intro c s c' _ hp hs
  rw [addScene_eq] at hs
  have hkeep : ∀ d, ⟨s.id, (c.book.allocate s.id "scene_").1, s.title, SceneNode.ofScene s⟩ ∈ d.scenes ∧ P d →
      ∀ node ∈ SceneNode.ofScene s, ∀ d', registerNode fs index s.id d node = .ok d' →
        ⟨s.id, (c.book.allocate s.id "scene_").1, s.title, SceneNode.ofScene s⟩ ∈ d'.scenes ∧ P d' := by
    rintro d ⟨hmem, hp⟩ node hnode d' hd'
    refine ⟨?_, register d d' _ node hmem hnode hp hd'⟩
    obtain ⟨-, rfl⟩ | ⟨_, _, _, _, -, -, rfl⟩ := registerNode_eq_ok hd'
    · exact hmem
    · exact hmem
  have := invariant_of_foldlM (fun d node d' hnode hd => hkeep d hd node hnode d')
    ⟨by simp [addLabel], label c s hp⟩ hs
  exact this.2

/-- Scenes have labels of their own. -/
structure Labelled (c : Compilation) : Prop where
  reserved : ∀ l ∈ reservedLabels, l ∈ c.book.used
  used : ∀ s ∈ c.scenes, s.label ∈ c.book.used
  free : ∀ s ∈ c.scenes, s.label ∉ reservedLabels
  distinct : (c.scenes.map (·.label)).Nodup
  named : ∀ s ∈ c.scenes, ∀ ch ∈ s.label.toList, Naming.NameChar ch
  known : ∀ id l, c.labels.get? id = some l → ∃ s ∈ c.scenes, s.sceneId = id ∧ s.label = l

theorem labelled_addLabel {c : Compilation} (h : Labelled c) (s : Scene) : Labelled (c.addLabel s) := by
  have hnew := LabelBook.allocate_not_mem c.book s.id "scene_"
  have hlead : ∀ ch ∈ ("scene_" : String).toList, Naming.NameChar ch :=
    Naming.nameChar_of_all (by decide)
  constructor
  · intro l hl
    exact List.mem_cons_of_mem _ (h.reserved l hl)
  · intro t ht
    rcases List.mem_append.1 ht with ht | ht
    · exact List.mem_cons_of_mem _ (h.used t ht)
    · obtain rfl := List.mem_singleton.1 ht
      exact List.mem_cons_self
  · intro t ht
    rcases List.mem_append.1 ht with ht | ht
    · exact h.free t ht
    · obtain rfl := List.mem_singleton.1 ht
      exact fun hl => hnew (h.reserved _ hl)
  · simp only [addLabel, List.map_append, List.map_cons, List.map_nil]
    refine List.nodup_append.2 ⟨h.distinct, by simp, ?_⟩
    rintro a ha b hb rfl
    obtain ⟨t, ht, rfl⟩ := List.mem_map.1 ha
    exact hnew (List.mem_singleton.1 hb ▸ h.used t ht)
  · intro t ht
    rcases List.mem_append.1 ht with ht | ht
    · exact h.named t ht
    · obtain rfl := List.mem_singleton.1 ht
      exact fun ch hch => LabelBook.nameChar_of_mem_allocate hlead hch
  · intro id l hl
    simp only [addLabel, OrderedMap.get?_insert] at hl
    split at hl
    · next heq =>
      obtain rfl := Std.LawfulEqCmp.eq_of_compare heq
      exact ⟨_, List.mem_append_right _ (List.mem_singleton.2 rfl), rfl, Option.some.inj hl⟩
    · obtain ⟨t, ht, hid, hlab⟩ := h.known id l hl
      exact ⟨t, List.mem_append_left _ ht, hid, hlab⟩

theorem labelled_ofScenes {scenes : List Scene} {c : Compilation} (h : ofScenes fs index scenes = .ok c) :
    Labelled c := by
  have warn (c : Compilation) (ws : List ExportWarning) (hc : Labelled c) :
      Labelled { c with warnings := ws } := ⟨hc.1, hc.2, hc.3, hc.4, hc.5, hc.6⟩
  refine invariant_of_ofScenes ?_ (fun c s hc => labelled_addLabel hc s) ?_ warn h
  · constructor <;> simp
  · intro c c' s node _ _ hc hr
    obtain ⟨-, rfl⟩ | ⟨_, _, _, _, -, -, rfl⟩ := registerNode_eq_ok hr
    · exact hc
    · exact ⟨hc.1, hc.2, hc.3, hc.4, hc.5, hc.6⟩

end Compilation

end StoryPress
