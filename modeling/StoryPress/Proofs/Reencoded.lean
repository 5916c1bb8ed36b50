import StoryPress.Proofs.Tags

/-!
# Documents that are written and read again

A document is read from what it is written as, whatever it was read from at first.

* `Json.list_map`, `Json.optional_value`: lists and what may be missing are read again;
* `Placement.read_toJson`: so is each placement, with the fields it leaves out;
* `Scene.Settled`, `Scene.settled_of_read`: the raw values of a scene that was read are in normal form, and none that
  may be missing is null;
* `documents_reencode`: so every document is read from its written form and from the normal form of that.
-/

namespace StoryPress

open Json (Tree Uniform Encodes Field)

/-! ## Parts of documents -/

namespace Json

variable {α : Type} {read : Tree → Reading α}

theorem list_map {toJson : α → Json} (h : ∀ x, read (Tree.ofJson (toJson x)) = .ok x) (xs : List α) :
    Tree.list read (Tree.ofJson (.array (xs.map toJson))) = .ok xs :=
  Tree.list_ofJson_iff.2 ⟨_, rfl, List.forall₂_map_left_iff.2 (List.forall₂_same.2 fun x _ => h x)⟩

theorem list_ofStrings (ss : List String) : Tree.list Tree.text (Tree.ofJson (Json.ofStrings ss)) = .ok ss :=
  list_map (fun _ => rfl) ss

theorem optional_ofText? (s : Option String) : Tree.optional Tree.text (Tree.ofJson (Json.ofText? s)) = .ok s := by
  cases s <;> rfl

theorem list_value {vs : List Json} (h : ∀ v ∈ vs, v.normalize = v) :
    Tree.list Tree.value (Tree.ofJson (.array vs)) = .ok vs :=
  Tree.list_ofJson_iff.2 ⟨vs, rfl, List.forall₂_same.2 fun v hv => by rw [Tree.value_ofJson, h v hv]⟩

/-- A value is read again unless it is null, which is read as nothing. -/
theorem optional_value {v : Option Json} (h : ∀ w, v = some w → w.normalize = w ∧ w ≠ .null) :
    Tree.optional Tree.value (Tree.ofJson (v.getD .null)) = .ok v := by
  cases v with
  | none => rfl
  | some w =>
    obtain ⟨hnormal, hnull⟩ := h w rfl
    rw [Option.getD_some, optional_ofJson hnull, Tree.value_ofJson, hnormal]
    rfl

/-! ## Values that were read -/

namespace Tree

theorem normal_of_value {t : Tree} {v : Json} (h : t.value = .ok v) : v.normalize = v := by
  obtain ⟨w, -, rfl⟩ := map_eq_ok.1 h
  exact normalize_normalize w

theorem raw_eq_null {t : Tree} (h : t.raw = .ok .null) : t = .null := by
  cases t with
  | null => rfl
  | number n => cases n <;> cases h
  | string s => cases s <;> cases h
  | array items ending =>
    obtain ⟨vs, -, h⟩ := bind_eq_ok.1 h
    obtain ⟨-, -, h⟩ := bind_eq_ok.1 h
    cases h
  | object members ending =>
    obtain ⟨fields, -, h⟩ := bind_eq_ok.1 h
    obtain ⟨-, -, h⟩ := bind_eq_ok.1 h
    cases h
  | _ => cases h

theorem normal_of_optional_value {t : Tree} {v : Json} (h : optional Tree.value t = .ok (some v)) :
    v.normalize = v ∧ v ≠ .null := by
  by_cases ht : t = .null
  · rw [ht] at h
    cases h
  · rw [optional_of_ne_null ht] at h
    obtain ⟨w, hw, hv⟩ := map_eq_ok.1 h
    obtain rfl := Option.some.inj hv
    refine ⟨normal_of_value hw, fun hnull => ht (raw_eq_null ?_)⟩
    obtain ⟨x, hx, hnormal⟩ := map_eq_ok.1 hw
    rw [hx, normalize_eq_null_iff.1 (hnormal.trans hnull)]

theorem forall_of_items {P : α → Prop} (hread : ∀ t x, read t = .ok x → P x) {ts : List Tree} {xs : List α}
    (h : items read ts = .ok xs) : ∀ x ∈ xs, P x := by
  induction ts generalizing xs with
  | nil =>
    cases h
    exact List.forall_mem_nil P
  | cons t ts ih =>
    obtain ⟨x, hx, h⟩ := bind_eq_ok.1 h
    obtain ⟨rest, hrest, h⟩ := bind_eq_ok.1 h
    obtain rfl := pure_eq_ok.1 h
    exact List.forall_mem_cons.2 ⟨hread t x hx, ih hrest⟩

/-- What holds of every item that can be read, holds of those of a list. -/
theorem forall_of_list {P : α → Prop} (hread : ∀ t x, read t = .ok x → P x) {t : Tree} {xs : List α}
    (h : list read t = .ok xs) : ∀ x ∈ xs, P x := by
  cases t with
  | array ts ending =>
    obtain ⟨ys, hys, h⟩ := bind_eq_ok.1 h
    obtain ⟨-, -, h⟩ := bind_eq_ok.1 h
    exact pure_eq_ok.1 h ▸ forall_of_items hread hys
  | deep inner => cases inner <;> cases h
  | number n => cases n <;> cases h
  | string s => cases s <;> cases h
  | _ => cases h

end Tree

end Json

/-! ## Placements -/

namespace Placement

theorem free_record : record.Free := by
  simp [Json.Record.Free, record, Field.apart_of]

theorem uniform_record : Uniform record.read := by
  refine Json.Record.uniform free_record ?_
  simp [record, Field.uniform_of, Json.uniform_text, ViewpointTag.uniform_read.optional, ViewpointTag.uniform_read.list]

theorem uniform_read : Uniform read := twoForms_read.uniform uniform_record

theorem read_tagged {members : List (String × Json)} {scene : String} {pov : Option ViewpointTag}
    {povs : List ViewpointTag} (h : record.read (Tree.ofJson (.object members)) = .ok ⟨scene, pov, povs⟩) :
    read (Tree.ofJson (.object members)) = .ok (tagged scene pov povs) :=
  (twoForms_read _ _).2 (.inr ⟨_, _, rfl, h, rfl⟩)

theorem read_toJson (p : Placement) : read (Tree.ofJson p.toJson) = .ok p := by
  cases p with
  | bare scene => rfl
  | tagged scene pov povs =>
    refine read_tagged ?_
    have hlist := Json.list_map ViewpointTag.read_toJson povs
    -- What is left out is what the record starts with.
    cases pov with
    | none =>
      cases povs with
      | nil => exact Json.Record.read_object_of_names ["scene_id"] rfl (by decide) rfl (bind_eq_ok.2 ⟨_, rfl, rfl⟩)
      | cons tag povs =>
        refine Json.Record.read_object_of_names ["scene_id", "povs"] rfl (by decide) rfl ?_
        exact bind_eq_ok.2 ⟨_, rfl, bind_eq_ok.2 ⟨_, map_eq_ok.2 ⟨_, hlist, rfl⟩, rfl⟩⟩
    | some single =>
      have hsingle : Tree.optional ViewpointTag.read (Tree.ofJson single.toJson) = .ok (some single) := by
        rw [Json.optional_ofJson single.toJson_ne_null, single.read_toJson]
        rfl
      cases povs with
      | nil =>
        refine Json.Record.read_object_of_names ["scene_id", "pov"] rfl (by decide) rfl ?_
        exact bind_eq_ok.2 ⟨_, rfl, bind_eq_ok.2 ⟨_, map_eq_ok.2 ⟨_, hsingle, rfl⟩, rfl⟩⟩
      | cons tag povs =>
        refine Json.Record.read_object_of_names ["scene_id", "pov", "povs"] rfl (by decide) rfl ?_
        exact bind_eq_ok.2 ⟨_, rfl, bind_eq_ok.2 ⟨_, map_eq_ok.2 ⟨_, hsingle, rfl⟩,
          bind_eq_ok.2 ⟨_, map_eq_ok.2 ⟨_, hlist, rfl⟩, rfl⟩⟩⟩

end Placement

/-! ## Documents -/

namespace Project

theorem uniform_read : Uniform read := by
  refine Json.Record.uniform ?_ ?_
  · simp [Json.Record.Free, record, Field.apart_of]
  · simp [record, Field.uniform_of, Json.uniform_text, Json.uniform_text.list]

theorem source_of_read {t : Tree} {p : Project} (h : read t = .ok p) : p.source = none := by
  refine Json.Record.invariant_of_read (P := fun p => p.source = none) ?_ rfl h
  simp [record, Field.preserves_of]

theorem read_toJson {p : Project} (h : p.source = none) : read (Tree.ofJson p.toJson) = .ok p := by
  obtain ⟨id, title, author, scenes, source⟩ := p
  obtain rfl : source = none := h
  refine Json.Record.read_object_of_names ["id", "title", "author", "scenes"] rfl (by decide) rfl ?_
  exact bind_eq_ok.2 ⟨_, rfl, bind_eq_ok.2 ⟨_, rfl, bind_eq_ok.2 ⟨_, rfl,
    bind_eq_ok.2 ⟨_, map_eq_ok.2 ⟨_, Json.list_ofStrings scenes, rfl⟩, rfl⟩⟩⟩⟩

end Project

namespace Timeline

theorem uniform_read : Uniform read := by
  refine Json.Record.uniform ?_ ?_
  · simp [Json.Record.Free, record, Field.apart_of]
  · simp [record, Field.uniform_of, Json.uniform_text, Json.uniform_text.optional, Placement.uniform_read.list]

theorem source_of_read {t : Tree} {d : Timeline} (h : read t = .ok d) : d.source = none := by
  refine Json.Record.invariant_of_read (P := fun d => d.source = none) ?_ rfl h
  simp [record, Field.preserves_of]

theorem read_toJson {d : Timeline} (h : d.source = none) : read (Tree.ofJson d.toJson) = .ok d := by
  obtain ⟨id, title, order, source⟩ := d
  obtain rfl : source = none := h
  refine Json.Record.read_object_of_names ["id", "title", "scene_order"] rfl (by decide) rfl ?_
  exact bind_eq_ok.2 ⟨_, rfl, bind_eq_ok.2 ⟨_, map_eq_ok.2 ⟨_, Json.optional_ofText? title, rfl⟩,
    bind_eq_ok.2 ⟨_, map_eq_ok.2 ⟨_, Json.list_map Placement.read_toJson order, rfl⟩, rfl⟩⟩⟩

end Timeline

namespace World

theorem uniform_read : Uniform read := by
  refine Json.Record.uniform ?_ ?_
  · simp [Json.Record.Free, record, Field.apart_of]
  · simp [record, Field.uniform_of, Json.uniform_text, Json.uniform_text.optional, ViewpointTag.uniform_read.list]

theorem source_of_read {t : Tree} {d : World} (h : read t = .ok d) : d.source = none := by
  refine Json.Record.invariant_of_read (P := fun d => d.source = none) ?_ rfl h
  simp [record, Field.preserves_of]

theorem read_toJson {d : World} (h : d.source = none) : read (Tree.ofJson d.toJson) = .ok d := by
  obtain ⟨id, name, timeline, preferred, povs, source⟩ := d
  obtain rfl : source = none := h
  refine Json.Record.read_object_of_names ["id", "name", "timeline", "default_pov", "povs"] rfl (by decide) rfl ?_
  exact bind_eq_ok.2 ⟨_, rfl, bind_eq_ok.2 ⟨_, map_eq_ok.2 ⟨_, Json.optional_ofText? name, rfl⟩,
    bind_eq_ok.2 ⟨_, map_eq_ok.2 ⟨_, Json.optional_ofText? timeline, rfl⟩,
      bind_eq_ok.2 ⟨_, map_eq_ok.2 ⟨_, Json.optional_ofText? preferred, rfl⟩,
        bind_eq_ok.2 ⟨_, map_eq_ok.2 ⟨_, Json.list_map ViewpointTag.read_toJson povs, rfl⟩, rfl⟩⟩⟩⟩⟩

end World

namespace Scene

theorem uniform_read : Uniform read := by
  refine Json.Record.uniform ?_ ?_
  · simp [Json.Record.Free, record, Field.apart_of]
  · simp [record, Field.uniform_of, Json.uniform_text, Json.uniform_text.optional, Json.uniform_value.optional,
      Json.uniform_value.list]

/-- The raw values of a scene are in normal form, and what may be missing is not null. -/
structure Settled (s : Scene) : Prop where
  pov : ∀ v, s.pov = some v → v.normalize = v ∧ v ≠ .null
  povs : ∀ v ∈ s.povs, v.normalize = v
  metadata : ∀ v, s.metadata = some v → v.normalize = v ∧ v ≠ .null
  dialogue : ∀ v ∈ s.dialogue, v.normalize = v
  nodes : ∀ v ∈ s.nodes, v.normalize = v
  source : s.source = none

theorem settled_of_read {t : Tree} {s : Scene} (h : read t = .ok s) : s.Settled := by
  refine Json.Record.invariant_of_read ?_ ⟨by simp [record], by simp [record], by simp [record], by simp [record],
    by simp [record], rfl⟩ h
  have hlist {t : Tree} {vs : List Json} (h : Tree.list Tree.value t = .ok vs) : ∀ v ∈ vs, v.normalize = v :=
    Json.Tree.forall_of_list (fun _ _ => Json.Tree.normal_of_value) h
  have hoptional {t : Tree} {v : Option Json} (h : Tree.optional Tree.value t = .ok v) :
      ∀ w, v = some w → w.normalize = w ∧ w ≠ .null :=
    fun w hw => Json.Tree.normal_of_optional_value (hw ▸ h)
  simp only [record, List.forall_mem_cons]
  refine ⟨?_, ?_, ?_, ?_, ?_, ?_, ?_, ?_, ?_, List.forall_mem_nil _⟩
  · exact Field.preserves_of "id" fun _ _ _ _ ha => { ha with }
  · exact Field.preserves_of "title" fun _ _ _ _ ha => { ha with }
  · exact Field.preserves_of "pov" fun _ _ _ hx ha => { ha with pov := hoptional hx }
  · exact Field.preserves_of "povs" fun _ _ _ hx ha => { ha with povs := hlist hx }
  · exact Field.preserves_of "metadata" fun _ _ _ hx ha => { ha with metadata := hoptional hx }
  · exact Field.preserves_of "background" fun _ _ _ _ ha => { ha with }
  · exact Field.preserves_of "portrait" fun _ _ _ _ ha => { ha with }
  · exact Field.preserves_of "dialogue" fun _ _ _ hx ha => { ha with dialogue := hlist hx }
  · exact Field.preserves_of "nodes" fun _ _ _ hx ha => { ha with nodes := hlist hx }

theorem read_toJson {s : Scene} (h : s.Settled) : read (Tree.ofJson s.toJson) = .ok s := by
  obtain ⟨id, title, pov, povs, metadata, background, portrait, dialogue, nodes, source⟩ := s
  obtain rfl : source = none := h.source
  refine Json.Record.read_object_of_names ["id", "title", "pov", "povs", "metadata", "background", "portrait",
    "dialogue", "nodes"] rfl (by decide) rfl ?_
  exact bind_eq_ok.2 ⟨_, rfl, bind_eq_ok.2 ⟨_, map_eq_ok.2 ⟨_, Json.optional_ofText? title, rfl⟩,
    bind_eq_ok.2 ⟨_, map_eq_ok.2 ⟨_, Json.optional_value h.pov, rfl⟩,
      bind_eq_ok.2 ⟨_, map_eq_ok.2 ⟨_, Json.list_value h.povs, rfl⟩,
        bind_eq_ok.2 ⟨_, map_eq_ok.2 ⟨_, Json.optional_value h.metadata, rfl⟩,
          bind_eq_ok.2 ⟨_, map_eq_ok.2 ⟨_, Json.optional_ofText? background, rfl⟩,
            bind_eq_ok.2 ⟨_, map_eq_ok.2 ⟨_, Json.optional_ofText? portrait, rfl⟩,
              bind_eq_ok.2 ⟨_, map_eq_ok.2 ⟨_, Json.list_value h.dialogue, rfl⟩,
                bind_eq_ok.2 ⟨_, map_eq_ok.2 ⟨_, Json.list_value h.nodes, rfl⟩, rfl⟩⟩⟩⟩⟩⟩⟩⟩⟩

end Scene

/-- A document that is read, from whatever, is read again from what it is written as, in the order of its fields and in
normal form. -/
theorem documents_reencode :
    (∀ t d, Project.read t = .ok d → d.source = none ∧ Encodes Project.read d.toJson d) ∧
      (∀ t d, Timeline.read t = .ok d → d.source = none ∧ Encodes Timeline.read d.toJson d) ∧
        (∀ t d, Scene.read t = .ok d → d.source = none ∧ Encodes Scene.read d.toJson d) ∧
          ∀ t d, World.read t = .ok d → d.source = none ∧ Encodes World.read d.toJson d := by
  refine ⟨?_, ?_, ?_, ?_⟩
  · intro t d h
    have hsource := Project.source_of_read h
    exact ⟨hsource, Project.uniform_read.encodes (Project.read_toJson hsource)⟩
  · intro t d h
    have hsource := Timeline.source_of_read h
    exact ⟨hsource, Timeline.uniform_read.encodes (Timeline.read_toJson hsource)⟩
  · intro t d h
    have hsettled := Scene.settled_of_read h
    exact ⟨hsettled.source, Scene.uniform_read.encodes (Scene.read_toJson hsettled)⟩
  · intro t d h
    have hsource := World.source_of_read h
    exact ⟨hsource, World.uniform_read.encodes (World.read_toJson hsource)⟩

/-- A timeline with a bare placement, and one whose tags have other names for the name. -/
def writtenTimeline : Json :=
  .object [("scene_order", .array [.string "intro", .object [("povs", .array [.string "bob",
    .object [("label", .string "Carol"), ("id", .string "carol")]]), ("note", .null), ("scene_id", .string "castle")]]),
    ("title", .null), ("id", .string "main")]

/-- A scene with null for its metadata, and with a node whose fields are out of order. -/
def writtenScene : Json :=
  .object [("metadata", .null), ("nodes", .array [.object [("type", .string "line"), ("content", .null),
    ("type", .bool true)]]), ("pov", .object [("name", .string "Bob"), ("id", .string "bob")])]

theorem documents_reencode_of_written :
    ∃ p d s w, Project.read (Tree.ofJson (.array [.string "tale"])) = .ok p ∧ Encodes Project.read p.toJson p ∧
      Timeline.read (Tree.ofJson writtenTimeline) = .ok d ∧ Encodes Timeline.read d.toJson d ∧
      d.order = [.bare "intro", .tagged "castle" none [.bare "bob", .named "carol" (some "Carol")]] ∧
      Scene.read (Tree.ofJson writtenScene) = .ok s ∧ Encodes Scene.read s.toJson s ∧ s.metadata = none ∧
      s.nodes = [.object [("content", .null), ("type", .bool true)]] ∧
      World.read (Tree.ofJson (.object [("povs", .array [.string "bob"]), ("id", .string "w")])) = .ok w ∧
      Encodes World.read w.toJson w := by
  obtain ⟨hproject, htimeline, hscene, hworld⟩ := documents_reencode
  have hp : Project.read (Tree.ofJson (.array [.string "tale"])) = .ok { id := "tale" } := rfl
  have hd : Timeline.read (Tree.ofJson writtenTimeline) = .ok { id := "main", order := [.bare "intro",
      .tagged "castle" none [.bare "bob", .named "carol" (some "Carol")]] } := rfl
  have hs : Scene.read (Tree.ofJson writtenScene) = .ok {
      pov := some (.object [("id", .string "bob"), ("name", .string "Bob")])
      nodes := [.object [("content", .null), ("type", .bool true)]] } := rfl
  have hw : World.read (Tree.ofJson (.object [("povs", .array [.string "bob"]), ("id", .string "w")])) =
      .ok { id := "w", povs := [.bare "bob"] } := rfl
  exact ⟨_, _, _, _, hp, (hproject _ _ hp).2, hd, (htimeline _ _ hd).2, rfl, hs, (hscene _ _ hs).2, rfl, rfl, hw,
    (hworld _ _ hw).2⟩

end StoryPress
